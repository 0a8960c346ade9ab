import Modelica.Expr.Traverse
import Modelica.Library.Lookup

set_option autoImplicit false

-- Copying a class with everything in it. A copy remembers what it was made from, and copying it again copies
-- that. The class around a class that is copied is never copied with it: it is noted as its own copy, even
-- where it is being copied at the time.

namespace Modelica.Copy

structure Memo where
  classes : List (ClassId × ClassId) := []
  symbols : List (SymbolId × SymbolId) := []
  modifications : List (ModificationId × ModificationId) := []
  arguments : List (ArgumentId × ArgumentId) := []

abbrev Copying (α : Type) := StateT Memo (EStateM Error Library) α

def lift {α : Type} (x : Build α) : Copying α := StateT.lift x

def noteClass (old new : ClassId) : Copying Unit :=
  modify fun m => { m with classes := (old, new) :: m.classes }

def noteSymbol (old new : SymbolId) : Copying Unit :=
  modify fun m => { m with symbols := (old, new) :: m.symbols }

def noteModification (old new : ModificationId) : Copying Unit :=
  modify fun m => { m with modifications := (old, new) :: m.modifications }

def noteArgument (old new : ArgumentId) : Copying Unit :=
  modify fun m => { m with arguments := (old, new) :: m.arguments }

def copyValues {κ α : Type} (f : α → Copying α) : List (κ × α) → Copying (List (κ × α))
  | [] => pure []
  | (k, a) :: rest => do
    let a ← f a
    return (k, a) :: (← copyValues f rest)

def copyList {α : Type} (f : α → Copying α) : List α → Copying (List α)
  | [] => pure []
  | a :: rest => do
    let a ← f a
    return a :: (← copyList f rest)

def copyOption {α : Type} (f : α → Copying α) : Option α → Copying (Option α)
  | none => pure none
  | some a => some <$> f a

mutual

def copyClass : Nat → ClassId → Copying ClassId
  | 0, _ => throw .unbounded
  | fuel + 1, id => do
    match (← get).classes.lookup id with
    | some c => return c
    | none =>
      let origin := (← lift (Build.classOf id)).origin
      let c ← copyOrigin fuel origin
      unless c = id do noteClass id c
      return c

def copyOrigin : Nat → ClassId → Copying ClassId
  | 0, _ => throw .unbounded
  | fuel + 1, id => do
    let d ← lift (Build.classOf id)
    if let some p := d.parent then noteClass p p
    match (← get).classes.lookup id with
    | some c =>
      lift (Build.updateClass c fun e => { e with origin := id })
      return c
    | none =>
      let c ← lift (Build.addClass fun _ => { d with origin := id })
      noteClass id c
      let ids : Renaming (StateT Memo (EStateM Error Library)) :=
        ⟨copySymbol fuel, copyModification fuel, fun r => pure (.function r)⟩
      let extends_ ← copyList (fun e => do
        return { e with modification := ← copyModification fuel e.modification }) d.extends_
      let classes ← copyValues (copyClass fuel) d.classes.entries
      let symbols ← copyValues (copySymbol fuel) d.symbols.entries
      let functions ← copyValues (copyClass fuel) d.functions.entries
      let initialEquations ← ids.mapping.equations d.initialEquations
      let equations ← ids.mapping.equations d.equations
      let constraints ← ids.mapping.constraints d.constraints
      let initialStatements ← ids.mapping.statements d.initialStatements
      let statements ← ids.mapping.statements d.statements
      let annotated ← copyOption (copyModification fuel) d.annotated
      let optimization ← copyOption (copyModification fuel) d.optimization
      let role ←
        match d.role with
        | .instance_ environment => do
          pure (ClassRole.instance_ (← copyModification fuel environment))
        | role => pure role
      lift (Build.updateClass c fun _ =>
        { d with
          extends_ := extends_
          classes := ⟨classes⟩
          symbols := ⟨symbols⟩
          functions := ⟨functions⟩
          initialEquations := initialEquations
          equations := equations
          constraints := constraints
          initialStatements := initialStatements
          statements := statements
          annotated := annotated
          optimization := optimization
          role := role
          origin := id })
      noteClass id c
      return c

def copySymbol : Nat → SymbolId → Copying SymbolId
  | 0, _ => throw .unbounded
  | fuel + 1, id => do
    match (← get).symbols.lookup id with
    | some s => return s
    | none =>
      let d ← lift (Build.symbolOf id)
      let s ← lift (Build.addSymbol d)
      noteSymbol id s
      let ids : Renaming (StateT Memo (EStateM Error Library)) :=
        ⟨copySymbol fuel, copyModification fuel, fun r => pure (.function r)⟩
      let type ←
        match d.type with
        | .named r => do pure (SymbolType.named (← r.rename ids))
        | .instance_ c => do pure (SymbolType.instance_ (← copyClass fuel c))
        | .connector name => pure (SymbolType.connector name)
      let dimensions ← ids.mapping.rows d.dimensions
      let start ← d.start.rename ids
      let min ← d.min.rename ids
      let max ← d.max.rename ids
      let nominal ← d.nominal.rename ids
      let value ← d.value.rename ids
      let fixed ← d.fixed.rename ids
      let unit ← d.unit.rename ids
      let free ← d.free.rename ids
      let initialGuess ← d.initialGuess.rename ids
      let modification ← copyOption (copyModification fuel) d.modification
      let connectorType ← copyOption (copyClass fuel) d.connectorType
      lift (Build.updateSymbol s fun _ =>
        { d with
          type := type
          dimensions := dimensions
          start := start
          min := min
          max := max
          nominal := nominal
          value := value
          fixed := fixed
          unit := unit
          free := free
          initialGuess := initialGuess
          modification := modification
          connectorType := connectorType })
      return s

def copyModification : Nat → ModificationId → Copying ModificationId
  | 0, _ => throw .unbounded
  | fuel + 1, id => do
    match (← get).modifications.lookup id with
    | some m => return m
    | none =>
      let m ← lift (Build.addModification [])
      noteModification id m
      let arguments ←
        copyList (copyArgument fuel) (← lift (Build.modificationOf id)).arguments
      lift (Build.updateModification m fun _ => arguments)
      return m

def copyArgument : Nat → ArgumentId → Copying ArgumentId
  | 0, _ => throw .unbounded
  | fuel + 1, id => do
    match (← get).arguments.lookup id with
    | some a => return a
    | none =>
      let origin := (← lift (Build.argumentOf id)).origin
      let d ← lift (Build.argumentOf origin)
      let a ←
        match (← get).arguments.lookup origin with
        | some a => pure a
        | none => do
          let a ← lift (Build.addArgument d.value none d.redeclare)
          noteArgument origin a
          let value ← copyArgumentValue fuel d.value
          lift (Build.updateArgument a fun e => { e with value := value })
          pure a
      lift (Build.updateArgument a fun e => { e with scope := d.scope, origin := origin })
      noteArgument id a
      return a

def copyArgumentValue : Nat → ArgumentValue → Copying ArgumentValue
  | 0, _ => throw .unbounded
  | fuel + 1, value => do
    let ids : Renaming (StateT Memo (EStateM Error Library)) :=
      ⟨copySymbol fuel, copyModification fuel, fun r => pure (.function r)⟩
    match value with
    | .element component changes =>
      let component ← component.rename ids
      return .element component (← Expr.renameAll ids changes)
    | .clause c =>
      let type ← c.type.rename ids
      let dimensions ← ids.mapping.rows c.dimensions
      let symbols ← copyList (copySymbol fuel) c.symbols
      return .clause ⟨c.prefixes, type, dimensions, symbols⟩
    | .shortClass s =>
      let component ← s.component.rename ids
      return .shortClass { s with component := component }

end

-- Each thing is copied once, and each step goes from one thing to the next.
def fuelFor (lib : Library) : Nat := 2 * lib.size + 2

end Copy

namespace Build

def copyClass (id : ClassId) : Build ClassId := do
  let (c, _) ← (Copy.copyClass (Copy.fuelFor (← get)) id).run {}
  return c

def copySymbol (id : SymbolId) : Build SymbolId := do
  let (s, _) ← (Copy.copySymbol (Copy.fuelFor (← get)) id).run {}
  return s

def copyInside {α : Type} (go : Mapping (StateT Copy.Memo (EStateM Error Library)) →
    Copy.Copying α) : Build α := do
  let fuel := Copy.fuelFor (← get)
  let ids : Renaming (StateT Copy.Memo (EStateM Error Library)) :=
    ⟨Copy.copySymbol fuel, Copy.copyModification fuel, fun r => pure (.function r)⟩
  let (a, _) ← (go ids.mapping).run {}
  return a

def copyEquation (e : Equation) : Build Equation := copyInside fun f => f.equation e

def copyStatement (s : Statement) : Build Statement := copyInside fun f => f.statement s

def copyConstraint (c : Constraint) : Build Constraint := copyInside fun f => f.constraint c

def instantiable (id : ClassId) (r : ComponentRef) : Build ClassId := do
  if elementaryNames.contains r.name then throw .elementaryClass
  copyClass (← findClass id r)

def baseClass (id : ClassId) (r : ComponentRef) : Build ClassId := do
  if elementaryNames.contains r.name then builtinClass id r.name
  else copyClass (← findClass id r)

end Build

end Modelica
