import Modelica.Outline

set_option autoImplicit false

namespace Modelica.Outline

mutual

def depth : Outline → Nat
  | .list items => depthItems items + 1
  | .table entries => depthTable entries + 1
  | .record _ fields => depthFields fields + 1
  | _ => 0

def depthItems : List Outline → Nat
  | [] => 0
  | o :: os => max o.depth (depthItems os)

def depthTable : List (Option String × Outline) → Nat
  | [] => 0
  | (_, o) :: os => max o.depth (depthTable os)

def depthFields : List (String × Outline) → Nat
  | [] => 0
  | (_, o) :: os => max o.depth (depthFields os)

end

def newline (indent : Nat) : String :=
  "\n" ++ String.ofList (List.replicate indent ' ')

def bracketed (opening closing : String) (indent : Nat) (items : List String) : String :=
  if items.isEmpty then opening ++ closing
  else
    opening ++ newline (indent + 2) ++ ("," ++ newline (indent + 2)).intercalate items ++
      newline indent ++ closing

def insertSorted {α : Type} (k : String) (a : α) : List (String × α) → List (String × α)
  | [] => [(k, a)]
  | (j, b) :: rest => if k < j then (k, a) :: (j, b) :: rest else (j, b) :: insertSorted k a rest

def sortKeys {α : Type} (entries : List (String × α)) : List (String × α) :=
  entries.foldl (fun sorted e => insertSorted e.1 e.2 sorted) []

def hidden (name : String) : Bool :=
  name = "parent" || name = "scope"

def tableKeys {α : Type} (entries : List (Option String × α)) :
    Except Error (List (String × α)) :=
  if entries.length ≤ 1 || entries.all (fun e => e.1.isSome) then
    .ok (sortKeys (entries.map fun e => (e.1.getD "null", e.2)))
  else .error .wrongShape

mutual

def dumpAt (indent : Nat) : Outline → Except Error String
  | .null => .ok "null"
  | .bool b => .ok (if b then "true" else "false")
  | .integer n => .ok (toString n)
  | .real x => .ok (Decimal.interchange.write x)
  | .string s => .ok (Text.quoted s)
  | .visibility v => .ok (Text.quoted v.text)
  | .list items => do return bracketed "[" "]" indent (← dumpItems (indent + 2) items)
  | .table entries => do
    let entries ← tableKeys (← dumpTable (indent + 2) entries)
    return bracketed "\x7b" "\x7d" indent (entries.map fun e => Text.quoted e.1 ++ ": " ++ e.2)
  | .record _ fields => do
    let fields ← dumpFields (indent + 2) fields
    return bracketed "\x7b" "\x7d" indent
      ((sortKeys fields).map fun e => Text.quoted e.1 ++ ": " ++ e.2)
  | .entry _ => .ok "null"
  | .link _ => .ok "null"

def dumpItems (indent : Nat) : List Outline → Except Error (List String)
  | [] => .ok []
  | o :: os => do
    let o ← dumpAt indent o
    return o :: (← dumpItems indent os)

def dumpTable (indent : Nat) :
    List (Option String × Outline) → Except Error (List (Option String × String))
  | [] => .ok []
  | (k, o) :: os => do
    let o ← dumpAt indent o
    return (k, o) :: (← dumpTable indent os)

def dumpFields (indent : Nat) : List (String × Outline) → Except Error (List (String × String))
  | [] => .ok []
  | (k, o) :: os => do
    if hidden k then dumpFields indent os
    else
      let o ← dumpAt indent o
      return (k, o) :: (← dumpFields indent os)

end

def dump : Outline → Except Error String
  | .record kind fields => dumpAt 0 (.record kind (("_type", .string kind) :: fields))
  | o => dumpAt 0 o

mutual

def shown : Outline → Except Error String
  | .null => .ok "None"
  | .bool b => .ok (if b then "True" else "False")
  | .integer n => .ok (toString n)
  | .real x => .ok (Decimal.plain.write x)
  | .string s => .ok (Text.inQuotes s)
  | .visibility v => .ok ("<Visibility." ++ v.text.toUpper ++ ": " ++ toString v.rank ++ ">")
  | .list items => do return "[" ++ ", ".intercalate (← shownItems items) ++ "]"
  | .table entries => do
    if entries.isEmpty then return "OrderedDict()"
    return "OrderedDict([" ++ ", ".intercalate (← shownTable entries) ++ "])"
  | .record kind fields => dump (.record kind fields)
  | .entry _ => .ok "None"
  | .link _ => .ok "None"

def shownItems : List Outline → Except Error (List String)
  | [] => .ok []
  | o :: os => do
    let o ← shown o
    return o :: (← shownItems os)

def shownTable : List (Option String × Outline) → Except Error (List String)
  | [] => .ok []
  | (k, o) :: os => do
    let o ← shown o
    let key := match k with
      | none => "None"
      | some s => Text.inQuotes s
    return ("(" ++ key ++ ", " ++ o ++ ")") :: (← shownTable os)

end

def field (fields : List (String × Outline)) (name : String) : Outline :=
  (fields.lookup name).getD .null

def refNames : Nat → Outline → Except Error (List String)
  | 0, _ => .error .unbounded
  | fuel + 1, .record "ComponentRef" fields => do
    let name ←
      match field fields "name" with
      | .string s => pure s
      | _ => .error .wrongShape
    match field fields "child" with
    | .list (c :: _) => do return name :: (← refNames fuel c)
    | _ => return [name]
  | _, _ => .error .notApplicable

def labelFrom : Nat → Outline → Except Error String
  | 0, _ => .error .unbounded
  | fuel + 1, o =>
    match o with
    | .string s => .ok s
    | .visibility v => .ok v.text
    | .record kind fields =>
      match kind with
      | "Primary" => do return "Primary value " ++ (← labelFrom fuel (field fields "value"))
      | "Array" => do return "Array " ++ (← labelFrom fuel (field fields "values"))
      | "Slice" => do
        return "Slice start: " ++ (← labelFrom fuel (field fields "start")) ++
          ", stop: " ++ (← labelFrom fuel (field fields "stop")) ++
          ", step: " ++ (← labelFrom fuel (field fields "step"))
      | "ComponentRef" => do return Text.join "." (← refNames (fuel + 1) (.record kind fields))
      | "Symbol" | "Class" | "InstanceClass" | "Tree" => do
        return kind ++ " " ++ (← labelFrom fuel (field fields "name")) ++ ", Type \"" ++
          (← labelFrom fuel (field fields "type")) ++ "\""
      | _ => dump (.record kind fields)
    | o => shown o

def label (o : Outline) : Except Error String :=
  labelFrom (o.depth + 2) o

end Modelica.Outline
