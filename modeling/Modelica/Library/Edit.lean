import Modelica.Library.Flatten
import Modelica.Outline.Fresh

set_option autoImplicit false

namespace Modelica

def ClassDef.setField (d : ClassDef) : String → Outline → ClassDef
  | "encapsulated", .bool b => { d with encapsulated := b }
  | "partial", .bool b => { d with isPartial := b }
  | "final", .bool b => { d with final := b }
  | "type", .string s => { d with type := s }
  | "comment", .string s => { d with comment := s }
  | _, _ => d

def wordsOf : List Outline → List String
  | [] => []
  | .string s :: rest => s :: wordsOf rest
  | _ :: rest => wordsOf rest

def Symbol.setField (s : Symbol) : String → Outline → Symbol
  | "prefixes", .list items => { s with prefixes := wordsOf items }
  | "redeclare", .bool b => { s with redeclare := b }
  | "final", .bool b => { s with final := b }
  | "inner", .bool b => { s with inner := b }
  | "outer", .bool b => { s with outer := b }
  | "comment", .string t => { s with comment := t }
  | "id", .integer n => { s with number := n }
  | "order", .integer n => { s with order := n }
  | _, _ => s

namespace Build

def checkFields (kind : String) (taken : List String) : List (String × Outline) → Build Unit
  | [] => pure ()
  | (name, _) :: rest => do
    if taken.contains name then throw .wrongShape
    unless (((Outline.fresh? kind).getD []).map Prod.fst).contains name do
      throw (.unknownName (name ++ " not valid arg"))
    checkFields kind taken rest

def insertClass (at_ : ClassId) (name : String) (fields : List (String × Outline)) :
    Build Unit := do
  checkFields "Class" ["name"] fields
  let c ← addClass fun id =>
    fields.foldl (fun d f => d.setField f.1 f.2) { name := some name, origin := id }
  updateClass at_ fun d => { d with classes := d.classes.insert (some name) c }
  updateClass c fun d => { d with parent := some at_ }

def eraseClass (at_ : ClassId) (name : String) : Build ClassId := do
  let c ← classEntry at_ name
  let key := (← classOf c).name
  unless (← classOf at_).classes.contains key do
    match key with
    | some k => throw (.unknownName k)
    | none => throw .missingPart
  updateClass at_ fun d => { d with classes := d.classes.erase key }
  updateClass c fun d => { d with parent := none }
  return c

def insertSymbol (at_ : ClassId) (name type : String) (fields : List (String × Outline)) :
    Build Unit := do
  checkFields "Symbol" ["name", "type"] fields
  let s ← addSymbol (fields.foldl (fun s f => s.setField f.1 f.2)
    { name := name, type := .named (.ofText type) })
  updateClass at_ fun d => { d with symbols := d.symbols.insert name s }

def eraseSymbol (at_ : ClassId) (name : String) : Build Unit := do
  let key := (← symbolOf (← symbolEntry at_ name)).name
  let _ ← symbolEntry at_ key
  updateClass at_ fun d => { d with symbols := d.symbols.erase key }

def insertEquation (at_ : ClassId) (left right : ComponentRef) : Build Unit :=
  updateClass at_ fun d =>
    { d with equations := d.equations ++ [.simple (.ref left) (.ref right) ""] }

def eraseEquation (at_ : ClassId) (place : Int) : Build Unit := do
  let n := (← classOf at_).equations.length
  let i := if place < 0 then place + n else place
  if i < 0 || (n : Int) ≤ i then throw .outOfRange
  updateClass at_ fun d => { d with equations := d.equations.eraseIdx i.toNat }

def classAt (root : ClassId) : List String → Build ClassId
  | [] => pure root
  | name :: rest => do classAt (← classEntry root name) rest

def findWith (id : ClassId) (r : ComponentRef) (copy builtin : Bool) : Build ClassId := do
  if elementaryNames.contains r.name then
    if builtin then builtinClass id r.name else throw .elementaryClass
  else
    let c ← findClass id r
    if copy then copyClass c else pure c

end Build

end Modelica
