import Modelica.Decimal
import Modelica.Text

set_option autoImplicit false

-- Expressions and references to components. Classes, components and modifications live in a library and are
-- known by number; an expression may stand for a declared component or hold a modification.

namespace Modelica

structure ClassId where
  index : Nat
deriving DecidableEq, Repr, Inhabited

structure SymbolId where
  index : Nat
deriving DecidableEq, Repr, Inhabited

structure ModificationId where
  index : Nat
deriving DecidableEq, Repr, Inhabited

structure ArgumentId where
  index : Nat
deriving DecidableEq, Repr, Inhabited

inductive Literal where
  | absent
  | bool (b : Bool)
  | integer (n : Int)
  | real (x : Binary64)
  | string (s : String)
deriving DecidableEq, Repr, Inhabited

mutual

inductive Expr where
  | literal (value : Literal)
  | ref (r : ComponentRef)
  | apply (operator : Operator) (operands : List Expr)
  | conditional (conditions values : List Expr)
  | array (values : List Expr)
  | slice (start stop step : Expr)
  | tuple (items : List Expr)
  | component (id : SymbolId)
  | modification (id : ModificationId)

-- A dotted name. Each part may carry groups of subscripts: a group is empty where none is written.
inductive ComponentRef where
  | mk (name : String) (subscripts : List (Option (List Expr))) (child : Option ComponentRef)

-- A sign or a word of the language, a function by its full name, or a function by reference.
inductive Operator where
  | named (name : String)
  | function (r : ComponentRef)

end

instance : Inhabited Expr := ⟨.literal .absent⟩

instance : Inhabited ComponentRef := ⟨.mk "" [none] none⟩

namespace Expr

def absent : Expr := .literal .absent

def integer (n : Int) : Expr := .literal (.integer n)

def isAbsent : Expr → Bool
  | .literal .absent => true
  | _ => false

end Expr

namespace ComponentRef

def name : ComponentRef → String
  | .mk n _ _ => n

def subscripts : ComponentRef → List (Option (List Expr))
  | .mk _ s _ => s

def child : ComponentRef → Option ComponentRef
  | .mk _ _ c => c

def simple (name : String) : ComponentRef := .mk name [none] none

def isPlain (r : ComponentRef) : Bool :=
  match r.subscripts with
  | [none] => true
  | _ => false

def names : ComponentRef → List String
  | .mk n _ none => [n]
  | .mk n _ (some c) => n :: c.names

def text (r : ComponentRef) : String := Text.join "." r.names

def ofNames (first : String) : List String → ComponentRef
  | [] => simple first
  | next :: rest => .mk first [none] (some (ofNames next rest))

def ofNames? : List String → Option ComponentRef
  | [] => none
  | first :: rest => some (ofNames first rest)

def ofText (s : String) : ComponentRef :=
  match Text.split '.' s with
  | [] => simple ""
  | first :: rest => ofNames first rest

def append : ComponentRef → ComponentRef → ComponentRef
  | .mk n s none, other => .mk n s (some other)
  | .mk n s (some c), other => .mk n s (some (c.append other))

def concat? : List ComponentRef → Option ComponentRef
  | [] => none
  | r :: rest => some (rest.foldl append r)

@[simp] theorem names_ofNames (first : String) (rest : List String) :
    (ofNames first rest).names = first :: rest := by
  induction rest generalizing first with
  | nil => rfl
  | cons next rest ih => simp [ofNames, names, ih]

@[simp] theorem names_append (r other : ComponentRef) :
    (r.append other).names = r.names ++ other.names := by
  match r with
  | .mk n s none => simp [append, names]
  | .mk n s (some c) => simp [append, names, names_append c other]

end ComponentRef

end Modelica
