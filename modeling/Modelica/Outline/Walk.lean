import Modelica.Outline.Text

set_option autoImplicit false

namespace Modelica.Outline

def visited : List String :=
  ["Array", "AssignmentStatement", "Class", "ClassModification", "ComponentClause",
   "ComponentRef", "ConnectClause", "Constraint", "ElementModification", "Equation",
   "Expression", "ExtendsClause", "ForEquation", "ForIndex", "ForStatement", "Function",
   "IfEquation", "IfExpression", "IfStatement", "ImportAsClause", "ImportFromClause", "Primary",
   "Slice", "Symbol", "Tree", "WhenEquation", "WhenStatement"]

structure Order where
  sorted : Bool
  skip : String → Bool

def inOrder : Order := ⟨false, hidden⟩

def byName : Order := ⟨true, fun name => hidden name || name = "class_modification"⟩

mutual

def events (order : Order) : Outline → List String
  | .list items => eventsItems order items
  | .table entries => eventsTable order entries
  | .record kind fields =>
    let own := fun (sign word : String) =>
      (sign ++ kind) :: (if visited.contains kind then [word ++ kind] else [])
    let inside := eventsFields order fields
    let inside := if order.sorted then sortKeys inside else inside
    own "+" "enter" ++ (inside.map Prod.snd).flatten ++ own "-" "exit"
  | _ => []

def eventsItems (order : Order) : List Outline → List String
  | [] => []
  | o :: os => events order o ++ eventsItems order os

def eventsTable (order : Order) : List (Option String × Outline) → List String
  | [] => []
  | (_, o) :: os => events order o ++ eventsTable order os

def eventsFields (order : Order) : List (String × Outline) → List (String × List String)
  | [] => []
  | (k, o) :: os =>
    if order.skip k then eventsFields order os
    else (k, events order o) :: eventsFields order os

end

def kinds (events : List String) : List String :=
  let entered := events.filterMap fun e =>
    match e.toList with
    | '+' :: kind => some (String.ofList kind)
    | _ => none
  (sortKeys (entered.eraseDups.map fun k => (k, ()))).map Prod.fst

inductive Step where
  | name (s : String)
  | index (n : Int)

def step (lib : Library) (o : Outline) (s : Step) : Except Error Outline :=
  match lib.open_ o, s with
  | .record _ fields, .name k =>
    match fields.lookup k with
    | some o => .ok o
    | none => .error .notApplicable
  | .record _ _, .index _ => .error .wrongShape
  | .table entries, .name k =>
    match entries.lookup (some k) with
    | some o => .ok o
    | none => .error (.unknownName k)
  | .table _, .index _ => .error .unsupported
  | .list items, .index n =>
    let i := if n < 0 then n + items.length else n
    if i < 0 then .error .outOfRange
    else
      match items[i.toNat]? with
      | some o => .ok o
      | none => .error .outOfRange
  | .list _, .name _ => .error .wrongShape
  | .link (some c), s =>
    match s, lib.outlineOf (.class_ c) with
    | .name k, .record _ fields =>
      match fields.lookup k with
      | some o => .ok o
      | none => .error .notApplicable
    | _, _ => .error .wrongShape
  | _, _ => .error .notApplicable

def walkTo (lib : Library) (o : Outline) : List Step → Except Error Outline
  | [] => .ok o
  | s :: rest => do
    let o ← step lib o s
    walkTo lib o rest

end Modelica.Outline
