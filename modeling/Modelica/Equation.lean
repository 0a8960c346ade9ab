import Modelica.Expr

set_option autoImplicit false

namespace Modelica

structure ForIndex where
  name : String
  domain : Expr

-- Whether each side of a connection is a connector of a sub-component, as opposed to one of the class that
-- holds the connection.
structure ConnectionSides where
  leftInner : Bool
  rightInner : Bool
deriving DecidableEq, Repr

inductive Equation where
  | simple (left right : Expr) (comment : String)
  | ifThen (conditions : List Expr) (blocks : List (List Equation)) (comment : String)
  | whenThen (conditions : List Expr) (blocks : List (List Equation)) (comment : String)
  | forLoop (indices : List ForIndex) (body : List Equation) (comment : String)
  | connect (left right : ComponentRef) (comment : String) (sides : Option ConnectionSides)
  | call (name : String) (arguments : List Expr) (comment : String)

instance : Inhabited Equation := ⟨.simple .absent .absent ""⟩

inductive Statement where
  | assign (left : List Expr) (right : Expr) (comment : String)
  | ifThen (conditions : List Expr) (blocks : List (List Statement)) (comment : String)
  | forLoop (indices : List ForIndex) (body : List Statement) (comment : String)

structure Constraint where
  left : Expr
  right : Expr
  relation : String
  comment : String

end Modelica
