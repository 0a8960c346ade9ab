import Modelica.Library.Copy

set_option autoImplicit false

namespace Modelica

namespace Argument

def concerns (a : Argument) (name : String) : Bool :=
  match a.value with
  | .element component _ => component.name == name
  | _ => false

end Argument

-- Adds what another class holds; of two entries with one name the later stays, in the place of the first.
def ClassDef.merge (d other : ClassDef) : ClassDef :=
  { d with
    classes := d.classes.union other.classes
    symbols := d.symbols.union other.symbols
    functions := d.functions.union other.functions
    initialEquations := d.initialEquations ++ other.initialEquations
    equations := d.equations ++ other.equations
    constraints := d.constraints ++ other.constraints
    initialStatements := d.initialStatements ++ other.initialStatements
    statements := d.statements ++ other.statements }

namespace Build

def appendArguments (m : ModificationId) (arguments : List ArgumentId) : Build Unit :=
  updateModification m (· ++ arguments)

def argumentsOf (m : ModificationId) : Build (List ArgumentId) := do
  return (← modificationOf m).arguments

def environmentOf (id : ClassId) : Build ModificationId := do
  match (← classOf id).role with
  | .instance_ environment => pure environment
  | _ => throw .notApplicable

def takeOver (id other : ClassId) : Build Unit := do
  let o ← classOf other
  updateClass id fun d => d.merge o
  match (← classOf id).annotated, o.annotated with
  | some m, some n => appendArguments m (← argumentsOf n)
  | _, _ => pure ()

def limitVisibility (id : ClassId) (v : Visibility) : Build Unit := do
  for s in (← classOf id).symbols.values do
    updateSymbol s fun d => if v.rank < d.visibility.rank then { d with visibility := v } else d

abbrev Builder := ClassId → Option ModificationId → Option ClassId → Build ClassId

def mergeBase (merge : Builder) (given id : ClassId) (waiting : ModificationId) (single : Bool)
    (clause : ExtendsClause) : Build Unit := do
  let base ← baseClass given clause.component
  let path ← pathText base
  if path = (← pathText given) then throw (.extendsItself path)
  let b ← classOf base
  if b.type = "__builtin" then
    unless single do throw .extendsBuiltinAndOthers
    updateClass id fun e => { e with type := b.type }
  let merged ← merge base (some clause.modification) b.parent
  takeOver id merged
  appendArguments waiting (← argumentsOf (← environmentOf merged))
  limitVisibility id clause.visibility

def modifyValue (id : ClassId) (waiting : ModificationId) : Build Unit := do
  if (← classOf id).type = "__builtin" then
    match (← classOf id).symbols.find? "__value" with
    | none => throw (.unknownName "__value")
    | some v =>
      match (← symbolOf v).modification with
      | some m => appendArguments m (← argumentsOf waiting)
      | none => updateSymbol v fun s => { s with modification := some waiting }
      let fresh ← addModification []
      updateClass id fun e => { e with role := .instance_ fresh }

def mergeBases : Nat → Builder
  | 0, _, _, _ => throw .unbounded
  | fuel + 1, given, environment, parent => do
    let d ← classOf given
    let annotated ← addModification []
    let waiting ←
      match d.role with
      | .instance_ e => pure e
      | _ => addModification []
    let id ← addClass fun id =>
      { name := d.name
        type := d.type
        annotated := some annotated
        parent := parent
        role := .instance_ waiting
        origin := id }
    for clause in d.extends_ do
      mergeBase (mergeBases fuel) given id waiting (d.extends_.length ≤ 1) clause
    takeOver id given
    if let some m := environment then appendArguments waiting (← argumentsOf m)
    modifyValue id waiting
    return id

def extendsBuiltin : Nat → ClassId → Build Bool
  | 0, _ => throw .unbounded
  | fuel + 1, id => do
    let mut result := false
    for clause in (← classOf id).extends_ do
      let base ← tryCatch (some <$> instantiable id clause.component) fun
        | .elementaryClass => pure none
        | e => throw e
      match base with
      | none => return true
      | some c =>
        if ← extendsBuiltin fuel c then result := true
    return result

def takeArguments (environment : ModificationId) (name : String) : Build (List ArgumentId) := do
  let lib ← get
  let own := (lib.modificationOf environment).arguments.filter fun a =>
    (lib.argumentOf a).concerns name
  updateModification environment fun all => all.filter fun a => !own.contains a
  return own

def elementOf (a : ArgumentId) : Build (ComponentRef × List Expr) := do
  match (← argumentOf a).value with
  | .element component changes => pure (component, changes)
  | _ => throw .notApplicable

-- The arguments by which an element of a built-in type is changed. A value that is given without a name is that
-- of the attribute `value`.
def attributeArguments (a : ArgumentId) : Build (List ArgumentId) := do
  let (_, changes) ← elementOf a
  let scope := (← argumentOf a).scope
  let mut result := []
  for change in changes do
    match change with
    | .modification m => result := result ++ (← argumentsOf m)
    | e =>
      let new ← addArgument (.element (.simple "value") [e]) scope false
      result := result ++ [new]
  return result

def plainModifier (a : ArgumentId) : Build Unit := do
  unless (← elementOf a).1.isPlain do throw .subscriptedModifier

def modifyMore (s : SymbolId) (arguments : List ArgumentId) : Build Unit := do
  match (← symbolOf s).modification with
  | some m => appendArguments m arguments
  | none =>
    let m ← addModification arguments
    updateSymbol s fun d => { d with modification := some m }

def nestedArguments (own : List ArgumentId) : Build (List ArgumentId) := do
  let mut result := []
  for a in own do
    for change in (← elementOf a).2 do
      match change with
      | .modification m => result := result ++ (← argumentsOf m)
      | _ => throw .notApplicable
  return result

def shiftArgument (a : ArgumentId) : Build Unit := do
  let (component, changes) ← elementOf a
  match component.child with
  | none => throw .outOfRange
  | some c => updateArgument a fun d => { d with value := .element c changes }

def targetName (a : ArgumentId) : Build String := do
  match (← argumentOf a).value with
  | .element component _ => pure component.name
  | .shortClass s => pure s.component.name
  | .clause _ => throw .notApplicable

def componentClass (id : ClassId) (s : SymbolId) : Build (Option ClassId) := do
  match (← symbolOf s).type with
  | .instance_ c => pure (some c)
  | .connector _ => throw .notApplicable
  | .named r =>
    tryCatch (some <$> instantiable id r) fun
      | .elementaryClass => pure none
      | e => throw e

def classEntry (id : ClassId) (name : String) : Build ClassId := do
  match (← classOf id).classes.find? (some name) with
  | some c => pure c
  | none => throw (.unknownName name)

def symbolEntry (id : ClassId) (name : String) : Build SymbolId := do
  match (← classOf id).symbols.find? name with
  | some s => pure s
  | none => throw (.unknownName name)

def redeclareSymbol (build : Builder) (new : ClassId) (oldName : Option String) (s : SymbolId) :
    Build Unit := do
  if let .instance_ c := (← symbolOf s).type then
    if (← classOf c).name = oldName then
      let type ← build new (← symbolOf s).modification (← classOf new).parent
      updateSymbol s fun d => { d with type := .instance_ type }

def redeclare (build : Builder) (id : ClassId) (a : ArgumentId) : Build Unit := do
  let argument ← argumentOf a
  if argument.redeclare then
    match argument.value with
    | .shortClass s =>
      let old ← classEntry id s.name
      let new ← instantiable (argument.scope.getD id) s.component
      updateClass id fun d => { d with classes := d.classes.insert (some s.name) new }
      let oldName := (← classOf old).name
      for symbol in (← classOf id).symbols.values do
        redeclareSymbol build new oldName symbol
    | .clause c =>
      for s in c.symbols do
        let s ← symbolOf s
        let target ← symbolEntry id s.name
        updateSymbol target fun d => { d with type := s.type }
    | .element _ _ => throw .unknownRedeclaration

def instantiateNested (build : Builder) (id : ClassId) (environment : ModificationId)
    (name : Option String) (c : ClassId) : Build Unit := do
  let own ←
    match name with
    | some n => takeArguments environment n
    | none => pure []
  let nested ← addModification (← nestedArguments own)
  let new ← build c (some nested) (some id)
  updateClass id fun d => { d with classes := d.classes.insert name new }

def checkTarget (id : ClassId) (a : ArgumentId) : Build Unit := do
  let target ← targetName a
  unless (← classOf id).symbols.contains target do
    throw (.modificationTarget target (← pathText id))

-- The arguments by which a component is modified from outside: those of its attributes if it goes back to a
-- built-in type, and else those of its own components.
def componentArguments (builtin : Bool) (own : List ArgumentId) : Build (List ArgumentId) := do
  let mut arguments := []
  for a in own do
    plainModifier a
    if builtin then arguments := arguments ++ (← attributeArguments a)
    else
      shiftArgument a
      arguments := arguments ++ [a]
  return arguments

def noteScope (id : ClassId) (s : SymbolId) : Build Unit := do
  let all ←
    match (← symbolOf s).modification with
    | some m => argumentsOf m
    | none => pure []
  for a in all do
    updateArgument a fun d => if d.scope.isNone then { d with scope := some id } else d

-- A component becomes an instance of its class with all modifications of it, or has them if its type is built
-- in.
def instantiateSymbol (build : Builder) (fuel : Nat) (given id : ClassId)
    (environment : ModificationId) (name : String) (s : SymbolId) : Build Unit := do
  match ← componentClass id s with
  | none =>
    let own ← takeArguments environment name
    modifyMore s (← componentArguments true own)
  | some c =>
    let own ← takeArguments environment name
    let builtin ← extendsBuiltin fuel c
    modifyMore s (← componentArguments builtin own)
    noteScope id s
    let type ← tryCatch
      (do build c (← symbolOf s).modification (← classOf c).parent) fun e => do
        throw (.inSymbol ((← pathText given) ++ "." ++ name) e)
    updateSymbol s fun d => { d with type := .instance_ type, modification := none }

def instantiate : Nat → Builder
  | 0, _, _, _ => throw .unbounded
  | fuel + 1, given, modification, parent => do
    let id ← mergeBases (fuel + 1) given modification parent
    let environment ← environmentOf id
    for a in ← argumentsOf environment do
      redeclare (instantiate fuel) id a
    let lib ← get
    updateModification environment fun all => all.filter fun a => !(lib.argumentOf a).redeclare
    for (name, c) in (← classOf id).classes.entries do
      instantiateNested (instantiate fuel) id environment name c
    for a in ← argumentsOf environment do
      checkTarget id a
    for (name, s) in (← classOf id).symbols.entries do
      instantiateSymbol (instantiate fuel) (fuel + 1) given id environment name s
    if let some m := (← classOf given).optimization then
      updateClass id fun d => { d with optimization := some m }
    return id

def depthLimit : Build Nat := do
  return 4 * (← get).size + 32

end Build

end Modelica
