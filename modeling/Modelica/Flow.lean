import Modelica.Expr
import Modelica.OrderedMap

set_option autoImplicit false

namespace Modelica

namespace Binary64

def integer? (x : Binary64) : Option Int :=
  if x.isNaN || x.isInfinite then none
  else
    let (num, den) := x.fraction
    if num % den = 0 then
      some (if x.isNegative then -((num / den : Nat) : Int) else ((num / den : Nat) : Int))
    else none

end Binary64

def Literal.canonical : Literal → Literal
  | .bool b => .integer (if b then 1 else 0)
  | .real x =>
    match x.integer? with
    | some n => .integer n
    | none => .real x
  | l => l

-- A flow variable in a connection: its name and subscripts, and whether it belongs to a sub-component.
structure FlowVariable where
  name : String
  subscripts : List Literal
  inner : Bool
deriving DecidableEq, Repr

abbrev FlowGroup := OrderedMap FlowVariable ComponentRef

abbrev FlowGroups := OrderedMap FlowVariable FlowGroup

namespace FlowGroups

def groupOf (groups : FlowGroups) (v : FlowVariable) : FlowGroup :=
  (groups.find? v).getD .empty

def connect (groups : FlowGroups) (left : FlowVariable) (leftRef : ComponentRef)
    (right : FlowVariable) (rightRef : ComponentRef) : FlowGroups :=
  let joined := (((groups.groupOf left).union (groups.groupOf right)).insert left leftRef).insert
    right rightRef
  joined.keys.foldl (fun groups v => groups.insert v joined) groups

def distinct (groups : FlowGroups) : List FlowGroup :=
  groups.entries.foldl (fun found e =>
    if found.any (fun g => g.contains e.1) then found else found ++ [e.2]) []

end FlowGroups

namespace FlowGroup

def terms (group : FlowGroup) : List Expr :=
  if group.keys.all (fun v => !v.inner) then group.values.map .ref
  else
    group.entries.map fun e =>
      if e.1.inner then .ref e.2 else .apply (.named "-") [.ref e.2]

end FlowGroup

def Expr.sum : List Expr → Expr
  | [] => .integer 0
  | [e] => e
  | e :: es => .apply (.named "+") [e, Expr.sum es]

end Modelica
