import Modelica.Equation
import Modelica.OrderedMap

set_option autoImplicit false

-- A library of class definitions. Classes refer to the class around them, components to the class of their
-- type, and modifications to the class they were written in, so these four kinds of thing have numbers and live
-- in tables; everything else is a value inside them.

namespace Modelica

inductive Visibility where
  | private_
  | protected_
  | public_
deriving DecidableEq, Repr, Inhabited

namespace Visibility

def rank : Visibility → Nat
  | private_ => 0
  | protected_ => 1
  | public_ => 2

def text : Visibility → String
  | private_ => "private"
  | protected_ => "protected"
  | public_ => "public"

def ofName? : String → Option Visibility
  | "PRIVATE" => some private_
  | "PROTECTED" => some protected_
  | "PUBLIC" => some public_
  | _ => none

def insertSorted {α : Type} (key : α → Visibility) (a : α) : List α → List α
  | [] => [a]
  | b :: rest =>
    if (key a).rank < (key b).rank then a :: b :: rest else b :: insertSorted key a rest

def sorted {α : Type} (key : α → Visibility) (items : List α) : List α :=
  items.foldl (fun acc a => insertSorted key a acc) []

end Visibility

-- The type of a component: written in the text, instantiated, or, of a connector that has been taken apart,
-- only the name of its class.
inductive SymbolType where
  | named (r : ComponentRef)
  | instance_ (c : ClassId)
  | connector (name : Option String)

inductive Attribute where
  | value | min | max | start | fixed | nominal | unit | free | initialGuess
deriving DecidableEq, Repr

namespace Attribute

def all : List Attribute :=
  [value, min, max, start, fixed, nominal, unit, free, initialGuess]

def name : Attribute → String
  | value => "value"
  | min => "min"
  | max => "max"
  | start => "start"
  | fixed => "fixed"
  | nominal => "nominal"
  | unit => "unit"
  | free => "free"
  | initialGuess => "initialGuess"

def ofName? (s : String) : Option Attribute :=
  all.find? fun a => a.name == s

end Attribute

structure Symbol where
  name : String := ""
  type : SymbolType := .named default
  prefixes : List String := []
  redeclare : Bool := false
  final : Bool := false
  inner : Bool := false
  outer : Bool := false
  dimensions : List (List Expr) := [[.absent]]
  comment : String := ""
  start : Expr := .absent
  min : Expr := .absent
  max : Expr := .absent
  nominal : Expr := .absent
  value : Expr := .absent
  fixed : Expr := .literal (.bool false)
  unit : Expr := .literal (.string "")
  free : Expr := .literal (.bool false)
  initialGuess : Expr := .absent
  number : Int := 0
  order : Int := 0
  visibility : Visibility := .private_
  modification : Option ModificationId := none
  -- The flat class of a connector, kept to expand connections.
  connectorType : Option ClassId := none

instance : Inhabited Symbol := ⟨{}⟩

namespace Symbol

def attr (s : Symbol) : Attribute → Expr
  | .value => s.value
  | .min => s.min
  | .max => s.max
  | .start => s.start
  | .fixed => s.fixed
  | .nominal => s.nominal
  | .unit => s.unit
  | .free => s.free
  | .initialGuess => s.initialGuess

def setAttr (s : Symbol) (a : Attribute) (e : Expr) : Symbol :=
  match a with
  | .value => { s with value := e }
  | .min => { s with min := e }
  | .max => { s with max := e }
  | .start => { s with start := e }
  | .fixed => { s with fixed := e }
  | .nominal => { s with nominal := e }
  | .unit => { s with unit := e }
  | .free => { s with free := e }
  | .initialGuess => { s with initialGuess := e }

@[simp] theorem attr_setAttr (s : Symbol) (a : Attribute) (e : Expr) :
    (s.setAttr a e).attr a = e := by
  cases a <;> rfl

end Symbol

structure ComponentClause where
  prefixes : List String
  type : ComponentRef
  dimensions : List (List Expr)
  symbols : List SymbolId

structure ShortClass where
  name : String
  type : String
  component : ComponentRef

inductive ArgumentValue where
  | element (component : ComponentRef) (changes : List Expr)
  | clause (c : ComponentClause)
  | shortClass (s : ShortClass)

-- One argument of a modification. Its scope is the class in which it was written, known once it has been handed
-- on to another class.
structure Argument where
  value : ArgumentValue
  scope : Option ClassId := none
  redeclare : Bool := false
  -- The argument that is copied in place of this one.
  origin : ArgumentId

structure Modification where
  arguments : List ArgumentId := []

structure ExtendsClause where
  component : ComponentRef
  modification : ModificationId
  visibility : Visibility := .private_

structure ImportClause where
  name : String
  component : ComponentRef

-- A class as defined, a class in an instance tree with the modifications that still wait in it, or the root of
-- a library.
inductive ClassRole where
  | definition
  | instance_ (environment : ModificationId)
  | root

inductive Entry where
  | class_ (id : ClassId)
  | symbol (id : SymbolId)
  | modification (id : ModificationId)
  | argument (id : ArgumentId)
deriving DecidableEq, Repr

structure ClassDef where
  name : Option String := none
  imports : List ImportClause := []
  extends_ : List ExtendsClause := []
  encapsulated : Bool := false
  isPartial : Bool := false
  final : Bool := false
  type : String := ""
  comment : String := ""
  classes : OrderedMap (Option String) ClassId := .empty
  symbols : OrderedMap String SymbolId := .empty
  functions : OrderedMap String ClassId := .empty
  initialEquations : List Equation := []
  equations : List Equation := []
  constraints : List Constraint := []
  initialStatements : List Statement := []
  statements : List Statement := []
  annotated : Option ModificationId := none
  optimization : Option ModificationId := none
  parent : Option ClassId := none
  role : ClassRole := .definition
  -- The class that is copied in place of this one.
  origin : ClassId

structure Library where
  classes : Array ClassDef := #[]
  symbols : Array Symbol := #[]
  modifications : Array Modification := #[]
  arguments : Array Argument := #[]
  warnings : Array String := #[]

instance : Inhabited Library := ⟨{}⟩

namespace Library

def classOf (lib : Library) (id : ClassId) : ClassDef :=
  (lib.classes[id.index]?).getD { origin := id }

def symbolOf (lib : Library) (id : SymbolId) : Symbol :=
  (lib.symbols[id.index]?).getD {}

def modificationOf (lib : Library) (id : ModificationId) : Modification :=
  (lib.modifications[id.index]?).getD {}

def argumentOf (lib : Library) (id : ArgumentId) : Argument :=
  (lib.arguments[id.index]?).getD { value := .element default [], origin := id }

def size (lib : Library) : Nat :=
  lib.classes.size + lib.symbols.size + lib.modifications.size + lib.arguments.size

end Library

end Modelica
