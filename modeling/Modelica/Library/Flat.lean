import Modelica.Expr.Qualify
import Modelica.Library.Constants
import Modelica.Library.Instance

set_option autoImplicit false

namespace Modelica.Build

def placeOf (id : ClassId) : Build (List (Option String)) := do
  let path := (← get).path id
  if path.isEmpty then throw .outOfRange
  return path

def appliesIn (scope : ClassId) (a : ArgumentId) : Build Bool := do
  match (← argumentOf a).scope with
  | none => pure true
  | some s => do
    let written ← placeOf s
    return written = (← placeOf scope)

def applyArgument (s : SymbolId) (a : ArgumentId) : Build Unit := do
  match (← argumentOf a).value with
  | .element component changes =>
    match Attribute.ofName? component.name with
    | none => throw (.unknownAttribute component.name)
    | some attribute_ =>
      match changes with
      | [] => throw .outOfRange
      | e :: _ => updateSymbol s fun d => d.setAttr attribute_ e
  | _ => throw (.broken "Found redeclaration modification which should already have been handled.")

def applyModification (scope : ClassId) (s : SymbolId) (m : ModificationId) : Build Unit := do
  let all ← argumentsOf m
  let mut now := []
  let mut later := []
  for a in all do
    if ← appliesIn scope a then now := now ++ [a] else later := later ++ [a]
  for a in now do applyArgument s a
  updateModification m fun _ => later

def settleSymbol (scope : ClassId) (s : SymbolId) : Build Unit := do
  let d ← symbolOf s
  match d.type, d.modification with
  | _, none => pure ()
  | .named _, some m =>
    unless (← argumentsOf m).isEmpty do applyModification scope s m
    if (← argumentsOf m).isEmpty then updateSymbol s fun d => { d with modification := none }
  | _, some _ =>
    throw (.broken "Found symbol modification on non-elementary type in instance tree.")

def settle (flat scope : ClassId) : Build Unit := do
  let lib ← get
  for e in lib.reachFrom lib.children [.class_ flat] do
    match e with
    | .symbol s => settleSymbol scope s
    | .class_ c =>
      match (← classOf c).role with
      | .instance_ environment =>
        unless (← argumentsOf environment).isEmpty do
          throw (.broken "Found unhandled modification on instance class.")
      | _ => pure ()
    | _ => pure ()

def qualifying (s : Surroundings) : Mapping (EStateM Error Library) :=
  ⟨fun e => pure (e.qualify s), fun r => pure (r.qualify s)⟩

def qualifyEntries (s : Surroundings) (starts : List Entry) : Build Unit := do
  let lib ← get
  for e in lib.reachFrom lib.openChildren starts do
    match e with
    | .argument a =>
      if (lib.argumentOf a).scope.isNone then mapEntry (qualifying s) e
    | e => mapEntry (qualifying s) e

def qualifySymbol (s : Surroundings) (id : SymbolId) : Build SymbolId := do
  let new ← copySymbol id
  qualifyEntries s [.symbol new]
  return new

def entriesIn (exprs : List Expr) : List Entry :=
  (Expr.allParts exprs).filterMap Part.entry?

def qualifyEquation (s : Surroundings) (e : Equation) : Build Equation := do
  let e ← copyEquation e
  qualifyEntries s (entriesIn e.exprs)
  (qualifying s).equation e

def qualifyStatement (s : Surroundings) (st : Statement) : Build Statement := do
  let st ← copyStatement st
  qualifyEntries s (entriesIn st.exprs)
  (qualifying s).statement st

def qualifyConstraint (s : Surroundings) (c : Constraint) : Build Constraint := do
  let c ← copyConstraint c
  qualifyEntries s (entriesIn c.exprs)
  (qualifying s).constraint c

abbrev Calls := OrderedMap String ClassId

abbrev Calling (α : Type) := StateT Calls (EStateM Error Library) α

def resolveCall (id : ClassId) (r : ComponentRef) : Calling Operator := do
  let found ← StateT.lift (tryCatch (do
    let c ← instantiable id r
    return some (c, ← pathText c)) fun
      | .classNotFound _ | .unknownName _ => pure none
      | e => throw e : Build (Option (ClassId × String)))
  match found with
  | none => return .function r
  | some (c, name) => do
    modify fun calls => calls.insert name c
    return .named name

def resolving (id : ClassId) : Mapping (StateT Calls (EStateM Error Library)) :=
  (⟨pure, pure, resolveCall id⟩ : Renaming (StateT Calls (EStateM Error Library))).mapping

def resolveEntries (id : ClassId) (starts : List Entry) : Calling Unit := do
  let lib ← StateT.lift (get : Build Library)
  for e in lib.reachFrom lib.children starts do
    mapEntry (resolving id) e

def resolveEquation (id : ClassId) (e : Equation) : Calling Equation := do
  let e ← StateT.lift (copyEquation e)
  let e ← (resolving id).equation e
  resolveEntries id (entriesIn e.exprs)
  return e

def resolveStatement (id : ClassId) (s : Statement) : Calling Statement := do
  let s ← StateT.lift (copyStatement s)
  let s ← (resolving id).statement s
  resolveEntries id (entriesIn s.exprs)
  return s

def resolveConstraint (id : ClassId) (c : Constraint) : Calling Constraint := do
  let c ← StateT.lift (copyConstraint c)
  let c ← (resolving id).constraint c
  resolveEntries id (entriesIn c.exprs)
  return c

def markSides (written flat : Equation) : Equation :=
  match written, flat with
  | .connect l r _ _, .connect fl fr c none =>
    .connect fl fr c (some ⟨l.child.isSome, r.child.isSome⟩)
  | _, e => e

def flattenEquations (id flat : ClassId) (s : Surroundings) : Calling Unit := do
  let d ← StateT.lift (classOf id)
  for e in d.equations do
    let new ← resolveEquation id e
    let new ← StateT.lift (qualifyEquation s new)
    StateT.lift (updateClass flat fun f =>
      { f with equations := f.equations ++ [markSides e new] })
  for c in d.constraints do
    let new ← resolveConstraint id c
    let new ← StateT.lift (qualifyConstraint s new)
    StateT.lift (updateClass flat fun f => { f with constraints := f.constraints ++ [new] })
  let initialEquations ← d.initialEquations.mapM (resolveEquation id)
  let statements ← d.statements.mapM (resolveStatement id)
  let initialStatements ← d.initialStatements.mapM (resolveStatement id)
  let initialEquations ← initialEquations.mapM fun e => StateT.lift (qualifyEquation s e)
  let statements ← statements.mapM fun st => StateT.lift (qualifyStatement s st)
  let initialStatements ← initialStatements.mapM fun st => StateT.lift (qualifyStatement s st)
  StateT.lift (updateClass flat fun f =>
    { f with
      initialEquations := f.initialEquations ++ initialEquations
      statements := f.statements ++ statements
      initialStatements := f.initialStatements ++ initialStatements })

def stripDirections (prefixes : List String) : List String :=
  (prefixes.erase "input").erase "output"

def addFlatSymbol (flat : ClassId) (s : SymbolId) : Build Unit := do
  let name := (← symbolOf s).name
  updateClass flat fun f => { f with symbols := f.symbols.insert name s }

def takeValue (s : SymbolId) (type : ClassId) : Build Unit := do
  let value ← symbolOf (← symbolEntry type "__value")
  match (← symbolOf s).modification with
  | some m =>
    match value.modification with
    | some n => appendArguments m (← argumentsOf n)
    | none => throw .notApplicable
  | none => updateSymbol s fun d => { d with modification := value.modification }
  updateSymbol s fun d =>
    { Attribute.all.foldl (fun d a => d.setAttr a (value.attr a)) d with type := value.type }

def addInstance (flat inner : ClassId) (outerDimensions : List (List Expr)) : Build Unit := do
  for t in (← classOf inner).symbols.values do
    updateSymbol t fun e => { e with dimensions := outerDimensions ++ e.dimensions }
  let i ← classOf inner
  updateClass flat fun f => f.merge i

def addComponent (flattenInstance : ClassId → String → Build ClassId)
    (flattenClass : ClassId → Build ClassId) (flat : ClassId) (before name : String)
    (s : SymbolId) : Build Unit := do
  updateSymbol s fun e =>
    { e with
      name := before ++ name
      prefixes := if before = "" then e.prefixes else stripDirections e.prefixes }
  match (← symbolOf s).type with
  | .named _ => addFlatSymbol flat s
  | .connector _ => throw .notApplicable
  | .instance_ c =>
    let type ← classOf c
    if type.type = "__builtin" then
      addFlatSymbol flat s
      takeValue s c
    else
      let inner ← flattenInstance c (← symbolOf s).name
      addInstance flat inner (← symbolOf s).dimensions
      if type.type = "connector" then
        let kept ← flattenClass c
        updateSymbol s fun e => { e with connectorType := some kept }
        addFlatSymbol flat s
        updateSymbol s fun e => { e with type := .connector type.name }

def qualifySymbols (flat : ClassId) (s : Surroundings) : Build Unit := do
  for (name, t) in (← classOf flat).symbols.entries do
    let new ← qualifySymbol s t
    updateClass flat fun f => { f with symbols := f.symbols.insert name new }

def addFunctions (flattenClass : ClassId → Build ClassId) (flat : ClassId) (calls : Calls) :
    Build Unit := do
  let mut functions : Calls := .empty
  for (name, c) in calls.entries do
    let function ← flattenClass c
    let inner := (← classOf function).functions
    updateClass flat fun f => { f with functions := f.functions.union inner }
    updateClass function fun f => { f with functions := .empty }
    functions := functions.insert name function
  let all := functions
  updateClass flat fun f => { f with functions := f.functions.union all }

mutual

-- The flat class of an instance; the components get the name of the instance in front. The fuel bounds the
-- depth.
def flattenInstance : Nat → ClassId → String → Build ClassId
  | 0, _, _ => throw .unbounded
  | fuel + 1, id, instanceName => do
    let d ← classOf id
    let flat ← addClass fun c =>
      { name := d.name
        type := d.type
        annotated := d.annotated
        optimization := d.optimization
        origin := c }
    let before := if instanceName = "" then "" else instanceName ++ "."
    for (name, s) in d.symbols.entries do
      addComponent (flattenInstance fuel) (flattenClass fuel) flat before name s
    settle flat id
    let names := (← classOf flat).symbols.keys
    let s : Surroundings := ⟨before, fun name => names.contains name⟩
    qualifySymbols flat s
    let (_, calls) ← (flattenEquations id flat s).run .empty
    addFunctions (flattenClass fuel) flat calls
    return flat

def flattenClass : Nat → ClassId → Build ClassId
  | 0, _ => throw .unbounded
  | fuel + 1, id => do
    let tree ← instantiate (← depthLimit) id none (← classOf id).parent
    pullConstants tree
    flattenInstance fuel tree ""

end

end Modelica.Build
