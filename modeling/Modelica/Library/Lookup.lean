import Modelica.Library.State

set_option autoImplicit false

namespace Modelica

namespace Library

def chain (lib : Library) : Nat → ClassId → List ClassId
  | 0, _ => []
  | fuel + 1, id =>
    id :: match (lib.classOf id).parent with
      | none => []
      | some p => lib.chain fuel p

def enclosing (lib : Library) (id : ClassId) : List ClassId :=
  lib.chain (lib.classes.size + 1) id

def path (lib : Library) (id : ClassId) : List (Option String) :=
  ((lib.enclosing id).map fun c => (lib.classOf c).name).dropLast.reverse

def pathText (names : List (Option String)) : Except Error String :=
  if names.isEmpty then .error .outOfRange
  else if names.all Option.isSome then .ok (Text.join "." (names.filterMap id))
  else .error .wrongShape

def rootOf (lib : Library) (id : ClassId) : ClassId :=
  ((lib.enclosing id).getLast?).getD id

def descend (lib : Library) (id : ClassId) : List String → Option ClassId
  | [] => some id
  | name :: rest =>
    match (lib.classOf id).classes.find? (some name) with
    | none => none
    | some c => lib.descend c rest

-- The class that a path names, seen from a class. Where the path leads nowhere the search starts again in the class
-- around, from its first name on. The fuel bounds the number of classes around.
def search (lib : Library) (names : List String) : Nat → ClassId → Option ClassId
  | 0, _ => none
  | fuel + 1, id =>
    match lib.descend id names with
    | some c => some c
    | none =>
      match (lib.classOf id).parent with
      | none => none
      | some p => lib.search names fuel p

def findClass? (lib : Library) (id : ClassId) (names : List String) : Option ClassId :=
  lib.search names (lib.classes.size + 1) id

theorem search_eq (lib : Library) (names : List String) (fuel : Nat) (id : ClassId) :
    lib.search names fuel id = (lib.chain fuel id).findSome? fun c => lib.descend c names := by
  induction fuel generalizing id with
  | zero => rfl
  | succ fuel ih =>
    rw [search, chain, List.findSome?_cons]
    cases lib.descend id names with
    | some c => rfl
    | none =>
      cases (lib.classOf id).parent with
      | none => rfl
      | some p => exact ih p

theorem findClass?_scan (lib : Library) (id : ClassId) (names : List String) :
    lib.findClass? id names = (lib.enclosing id).findSome? fun c => lib.descend c names :=
  lib.search_eq names _ id

def findClassIn? (lib : Library) (around : Bool) (id : ClassId) (names : List String) :
    Option ClassId :=
  if around then lib.findClass? id names else lib.descend id names

end Library

def elementaryNames : List String :=
  ["Real", "Integer", "String", "Boolean", "Modelica", "SI"]

def elementaryType (name : String) : String :=
  if name = "Modelica" || name = "SI" then "Real" else name

namespace Build

def liftExcept {α : Type} : Except Error α → Build α
  | .ok a => pure a
  | .error e => throw e

def pathText (id : ClassId) : Build String := do
  liftExcept (Library.pathText ((← get).path id))

def findClass (id : ClassId) (r : ComponentRef) : Build ClassId := do
  match (← get).findClass? id r.names with
  | some c => pure c
  | none => throw (.classNotFound r.text)

def builtinClass (id : ClassId) (name : String) : Build ClassId := do
  let type := elementaryType name
  let value ← addSymbol { name := "__value", type := .named (.simple type) }
  let root := (← get).rootOf id
  addClass fun c =>
    { name := some type
      type := "__builtin"
      parent := some root
      symbols := (OrderedMap.empty).insert "__value" value
      origin := c }

-- The constant that a reference names. Along the path classes come before components, and every component on
-- the way must be a constant. The fuel is the number of names.
def findConstantFrom : Nat → Bool → ClassId → List String → Build SymbolId
  | 0, _, _, _ => throw .constantNotFound
  | _, _, _, [] => throw .constantNotFound
  | _, _, id, [name] => do
    match (← classOf id).symbols.find? name with
    | some s => pure s
    | none => throw .constantNotFound
  | fuel + 1, around, id, name :: rest => do
    let direct ←
      match (← get).findClassIn? around id [name] with
      | none => pure none
      | some c =>
        tryCatch (some <$> findConstantFrom fuel false c rest) fun
          | .classNotFound _ => pure none
          | e => throw e
    match direct with
    | some s => pure s
    | none =>
      match (← classOf id).symbols.find? name with
      | none => throw .constantNotFound
      | some s =>
        let symbol ← symbolOf s
        unless symbol.prefixes.contains "constant" do throw .constantNotFound
        match symbol.type with
        | .instance_ c => findConstantFrom fuel false c rest
        | .named r => do
          let c ← findClass id r
          findConstantFrom fuel false c rest
        | .connector kind =>
          throw (.unknownSymbolType
            (if kind.isSome then "<class 'str'>" else "<class 'NoneType'>"))

def findConstant (id : ClassId) (r : ComponentRef) : Build SymbolId :=
  findConstantFrom r.names.length true id r.names

end Build

end Modelica
