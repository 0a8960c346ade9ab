import Modelica.Token

set_option autoImplicit false

namespace Modelica.Source

mutual

inductive Expr where
  | number (text : String)
  | string (text : String)
  | bool (value : Bool)
  | ref (parts : List RefPart)
  | call (function : List RefPart) (arguments : Arguments)
  | der (arguments : Arguments)
  | initial (arguments : Arguments)
  | paren (items : List Expr)
  | matrix (rows : List (List Expr))
  | braces (arguments : Arguments)
  | end_
  | neg (operand : Expr)
  | not_ (operand : Expr)
  | binary (sign : Terminal) (left right : Expr)
  | range (first second : Expr) (third : Option Expr)
  | conditional (branches : List (Expr × Expr)) (otherwise : Expr)

inductive RefPart where
  | mk (name : String) (subscripts : Option (List Subscript))

inductive Subscript where
  | all
  | expr (e : Expr)

inductive Arguments where
  | empty
  | positional (items : List ArgumentItem)
  | named (items : List (String × Argument))

inductive ArgumentItem where
  | argument (a : Argument)
  | iterators (indices : List ForIndex)

inductive Argument where
  | function (name : String) (named : List (String × Argument))
  | expr (e : Expr)

inductive ForIndex where
  | mk (name : String) (domain : Option Expr)

end

abbrev Reference := List RefPart

abbrev Subscripts := List Subscript

mutual

inductive Modification where
  | nested (arguments : List ModificationArgument) (value : Option Expr)
  | assign (value : Expr)

inductive ModificationArgument where
  | modify (component : Reference) (modification : Option Modification)
  | replaceable (element : Redeclared) (constrainedBy : Option (List ModificationArgument))
  | redeclare (element : Redeclared)
  | redeclareReplaceable (element : Redeclared)
      (constrainedBy : Option (List ModificationArgument))

inductive Redeclared where
  | shortClass (type name : String) (base : Reference) (subscripts : Option Subscripts)
      (modification : Option (List ModificationArgument)) (comment : Comment)
  | shortEnumeration (type name : String) (literals : List Comment) (comment : Comment)
  | component (prefixes : List Terminal) (type : List String) (name : String)
      (subscripts : Option Subscripts) (modification : Option Modification) (comment : Comment)

inductive Comment where
  | mk (text : String) (annotated : Option (List ModificationArgument))

end

abbrev ClassModification := List ModificationArgument

mutual

inductive Equation where
  | mk (body : EquationBody) (comment : Comment)

inductive EquationBody where
  | simple (left right : Expr)
  | ifThen (branches : List EquationBranch) (otherwise : Option (List Equation))
  | whenThen (branches : List EquationBranch)
  | forLoop (indices : List ForIndex) (body : List Equation)
  | connect (left right : Reference)
  | call (name : String) (arguments : Arguments)

inductive EquationBranch where
  | mk (condition : Expr) (body : List Equation)

end

mutual

inductive Statement where
  | mk (body : StatementBody) (comment : Comment)

inductive StatementBody where
  | assign (left : Reference) (right : Expr)
  | call (function : Reference) (arguments : Arguments)
  | assignCall (left : List Reference) (function : Reference) (arguments : Arguments)
  | break_
  | return_
  | ifThen (branches : List StatementBranch) (otherwise : Option (List Statement))
  | forLoop (indices : List ForIndex) (body : List Statement)
  | whileLoop (condition : Expr) (body : List Statement)
  | whenThen (branches : List StatementBranch)

inductive StatementBranch where
  | mk (condition : Expr) (body : List Statement)

end

structure Constraint where
  left : Expr
  relation : Terminal
  right : Expr
  comment : Comment

structure Declaration where
  name : String
  subscripts : Option Subscripts
  modification : Option Modification
  condition : Option Expr
  comment : Comment

structure ComponentClause where
  prefixes : List Terminal
  type : List String
  subscripts : Option Subscripts
  declarations : List Declaration

inductive Import where
  | renaming (name : String) (component : Reference) (comment : Comment)
  | whole (component : Reference) (comment : Comment)
  | all (component : Reference) (comment : Comment)
  | selected (component : Reference) (names : List String) (comment : Comment)

structure ExternalCall where
  result : Option Reference
  arguments : List Expr

structure External where
  call : Option ExternalCall
  annotated : Option ClassModification

structure Constraining where
  modification : Option ClassModification
  comment : Comment

mutual

inductive ClassDefinition where
  | mk (encapsulated isPartial : Bool) (type : String) (specifier : ClassSpecifier)

inductive ClassSpecifier where
  | long (name : String) (modification : Option ClassModification) (comment : String)
      (body : Composition)
  | base (name : String) (component : Reference) (modification : Option ClassModification)
      (comment : Comment)
  | enumeration (literals : List Comment) (comment : Comment)
  | derivative (comment : Comment)
  | extending (modification : Option ClassModification) (body : Composition)

inductive Composition where
  | mk (leading : List Element) (sections : List Section) (external : Option External)
      (annotated : Option ClassModification)

inductive Section where
  | visible (isPublic : Bool) (elements : List Element)
  | equations (initial : Bool) (body : List Equation)
  | statements (initial : Bool) (body : List Statement)
  | constraints (initial : Bool) (body : List Constraint)

inductive Element where
  | import_ (clause : Import)
  | extends_ (component : Reference) (modification : Option ClassModification)
      (annotated : Option ClassModification)
  | class_ (definition : ClassDefinition) (constrainedBy : Option Constraining)
  | component (clause : ComponentClause) (constrainedBy : Option Constraining)

end

structure StoredClass where
  final : Bool
  definition : ClassDefinition

structure StoredDefinition where
  within : Option Reference
  classes : List StoredClass

end Modelica.Source
