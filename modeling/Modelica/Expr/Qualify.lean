import Modelica.Expr

set_option autoImplicit false

-- References inside an instance become references to the components of the flat class: one name, and all
-- subscripts along the way. A reference that names no component stays as it is, with everything in it.

namespace Modelica

-- The name of an instance followed by a point, or nothing, and the components that there are.
structure Surroundings where
  before : String
  known : String → Bool

mutual

def Expr.qualify (s : Surroundings) : Expr → Expr
  | .literal v => .literal v
  | .ref r => .ref (r.qualify s)
  | .apply o es => .apply (o.qualify s) (Expr.qualifyAll s es)
  | .conditional cs es => .conditional (Expr.qualifyAll s cs) (Expr.qualifyAll s es)
  | .array es => .array (Expr.qualifyAll s es)
  | .slice a b c => .slice (a.qualify s) (b.qualify s) (c.qualify s)
  | .tuple es => .tuple (Expr.qualifyAll s es)
  | .component id => .component id
  | .modification id => .modification id

def Expr.qualifyAll (s : Surroundings) : List Expr → List Expr
  | [] => []
  | e :: es => e.qualify s :: Expr.qualifyAll s es

def ComponentRef.qualify (s : Surroundings) : ComponentRef → ComponentRef
  | .mk name groups child =>
    let full := s.before ++ (ComponentRef.mk name groups child).text
    if s.known full then
      .mk full (Expr.qualifyGroups s groups ++ ComponentRef.qualifyRest s child) none
    else .mk name groups child

def ComponentRef.qualifyRest (s : Surroundings) :
    Option ComponentRef → List (Option (List Expr))
  | none => []
  | some (.mk _ groups child) =>
    Expr.qualifyGroups s groups ++ ComponentRef.qualifyRest s child

def Expr.qualifyGroups (s : Surroundings) :
    List (Option (List Expr)) → List (Option (List Expr))
  | [] => []
  | none :: rest => none :: Expr.qualifyGroups s rest
  | some es :: rest => some (Expr.qualifyAll s es) :: Expr.qualifyGroups s rest

def Operator.qualify (s : Surroundings) : Operator → Operator
  | .named name => .named name
  | .function r => .function (r.qualify s)

end

end Modelica
