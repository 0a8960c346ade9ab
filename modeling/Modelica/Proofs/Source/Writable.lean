import Mathlib.Algebra.Group.Nat.Defs
import Modelica.Proofs.Source.Printed

set_option autoImplicit false

namespace Modelica

open Phrase (level?)

-- An operator that stands in front of one operand, between two, or as `der` in front of a list.
def Operator.Joins (name : String) (operands : Nat) : Prop :=
  (name = "der" ∧ operands ≠ 0) ∨ ((name = "-" ∨ name = "not") ∧ operands = 1) ∨
    ∃ sign : Terminal, name = sign.spelling ∧ operands = 2 ∧
      (sign = .caret ∨ sign = .dotCaret ∨ (level? sign).isSome)

def Expr.everything : Expr := .slice .absent .absent (.integer 1)

def Literal.Writable : Literal → Prop
  | .string s => Word.closes false s.toList = true
  | .bool _ => True
  | .integer n => ∃ m : Nat, n = m ∧ m < 10 ^ Define.longestInteger
  | .real x => ∃ s, Numeral s (.real x)
  | .absent => False

mutual

def Expr.Writable : Expr → Prop
  | .literal v => v.Writable
  | .ref r => r.Writable
  | .apply (.function f) es => f.Writable ∧ es ≠ [] ∧ Expr.AllWritable es
  | .apply (.named name) es => Operator.Joins name es.length ∧ Expr.AllWritable es
  | .conditional cs vs =>
    cs ≠ [] ∧ vs.length = cs.length + 1 ∧ Expr.AllWritable cs ∧ Expr.AllWritable vs
  | .array es => es ≠ [] ∧ Expr.AllWritable es
  | .slice _ _ _ | .tuple _ | .component _ | .modification _ => False

def Expr.AllWritable : List Expr → Prop
  | [] => True
  | e :: es => e.Writable ∧ Expr.AllWritable es

def Expr.SubscriptsWritable : List Expr → Prop
  | [] => True
  | e :: es => (e = .everything ∨ e.Writable) ∧ Expr.SubscriptsWritable es

def ComponentRef.Writable : ComponentRef → Prop
  | .mk name [none] none => Word.IsName name
  | .mk name [none] (some r) => Word.IsName name ∧ r.Writable
  | .mk name [some es] none => Word.IsName name ∧ es ≠ [] ∧ Expr.SubscriptsWritable es
  | .mk name [some es] (some r) =>
    (Word.IsName name ∧ es ≠ [] ∧ Expr.SubscriptsWritable es) ∧ r.Writable
  | _ => False

end

theorem Numeral.toDigits (n : Nat) (small : n < 10 ^ Define.longestInteger) :
    Numeral (String.ofList (Nat.toDigits 10 n)) (.integer n) := by
  have short : (Nat.toDigits 10 n).length ≤ Define.longestInteger :=
    (Nat.length_toDigits_le_iff (by decide) (by decide)).2 small
  have digits : (Nat.toDigits 10 n).all Char.isDigit = true :=
    List.all_eq_true.2 fun _ member => Nat.isDigit_of_mem_toDigits (by decide) (by decide) member
  have numeral := Numeral.integer (String.ofList (Nat.toDigits 10 n)) (by simp) (by simpa using digits)
    (by simpa using short)
  simpa only [String.toList_ofList, Decimal.digitsValue_toDigits] using numeral

namespace Printed

theorem moreItems_of_all (es : List Expr) (each : ∀ e ∈ es, ∃ ws, Printed (.primary e) ws) :
    ∃ ws, Printed (.moreItems es) ws := by
  induction es with
  | nil => exact ⟨_, .noItem⟩
  | cons e es ih =>
    obtain ⟨⟨ws, first⟩, rest⟩ := List.forall_mem_cons.1 each
    obtain ⟨vs, more⟩ := ih rest
    exact ⟨_, .item (.simple (.bare first)) more⟩

theorem items_of_all (es : List Expr) (some : es ≠ [])
    (each : ∀ e ∈ es, ∃ ws, Printed (.primary e) ws) : ∃ ws, Printed (.items es) ws := by
  obtain ⟨e, es, rfl⟩ := List.exists_cons_of_ne_nil some
  obtain ⟨⟨ws, first⟩, rest⟩ := List.forall_mem_cons.1 each
  obtain ⟨vs, more⟩ := moreItems_of_all es rest
  exact ⟨_, .items (.simple (.bare first)) more⟩

theorem moreSubscripts_of_all (es : List Expr)
    (each : ∀ e ∈ es, ∃ ws, Printed (.subscript e) ws) : ∃ ws, Printed (.moreSubscripts es) ws := by
  induction es with
  | nil => exact ⟨_, .noSubscript⟩
  | cons e es ih =>
    obtain ⟨⟨ws, first⟩, rest⟩ := List.forall_mem_cons.1 each
    obtain ⟨vs, more⟩ := ih rest
    exact ⟨_, .nextSubscript first more⟩

theorem subscripts_of_all (es : List Expr) (some : es ≠ [])
    (each : ∀ e ∈ es, ∃ ws, Printed (.subscript e) ws) : ∃ ws, Printed (.subscripts es) ws := by
  obtain ⟨e, es, rfl⟩ := List.exists_cons_of_ne_nil some
  obtain ⟨⟨ws, first⟩, rest⟩ := List.forall_mem_cons.1 each
  obtain ⟨vs, more⟩ := moreSubscripts_of_all es rest
  exact ⟨_, .subscripts first more⟩

theorem branches_of_all (cs vs : List Expr) (same : vs.length = cs.length)
    (conditions : ∀ e ∈ cs, ∃ ws, Printed (.primary e) ws)
    (values : ∀ e ∈ vs, ∃ ws, Printed (.primary e) ws) : ∃ ws, Printed (.branches cs vs) ws := by
  induction cs generalizing vs with
  | nil =>
    obtain rfl := List.length_eq_zero_iff.1 same
    exact ⟨_, .noBranch⟩
  | cons c cs ih =>
    obtain ⟨v, vs, rfl⟩ := List.exists_cons_of_length_eq_add_one same
    obtain ⟨⟨_, first⟩, conditions⟩ := List.forall_mem_cons.1 conditions
    obtain ⟨⟨_, second⟩, values⟩ := List.forall_mem_cons.1 values
    obtain ⟨_, more⟩ := ih vs (Nat.succ.inj same) conditions values
    exact ⟨_, .branch (.simple (.bare first)) (.simple (.bare second)) more⟩

theorem conditional_of_all (cs vs : List Expr) (some : cs ≠ []) (one : vs.length = cs.length + 1)
    (conditions : ∀ e ∈ cs, ∃ ws, Printed (.primary e) ws) (values : ∀ e ∈ vs, ∃ ws, Printed (.primary e) ws) :
    ∃ ws, Printed (.primary (.conditional cs vs)) ws := by
  obtain ⟨c, cs, rfl⟩ := List.exists_cons_of_ne_nil some
  obtain ⟨v, vs, rfl⟩ := List.exists_cons_of_length_eq_add_one one
  -- the last value is the one behind `else`
  obtain ⟨vs, e, rfl⟩ : ∃ init last, vs = init ++ [last] := by
    have nonempty : vs ≠ [] := by
      rintro rfl
      simp at one
    exact ⟨_, _, (List.dropLast_concat_getLast nonempty).symm⟩
  have same : vs.length = cs.length := by simpa using one
  simp only [List.mem_cons, List.mem_append, List.not_mem_nil, or_false, or_imp, forall_and, forall_eq] at conditions values
  obtain ⟨⟨_, first⟩, conditions⟩ := conditions
  obtain ⟨⟨_, second⟩, values, ⟨_, last⟩⟩ := values
  obtain ⟨_, more⟩ := branches_of_all cs vs same conditions values
  exact ⟨_, .paren (.conditional (.simple (.bare first)) (.simple (.bare second)) more (.simple (.bare last)))⟩

theorem apply_of_all (name : String) (es : List Expr) (joins : Operator.Joins name es.length)
    (each : ∀ e ∈ es, ∃ ws, Printed (.primary e) ws) : ∃ ws, Printed (.primary (.apply (.named name) es)) ws := by
  obtain ⟨rfl, some⟩ | ⟨sign, one⟩ | ⟨sign, rfl, two, binds⟩ := joins
  · obtain ⟨_, items⟩ := items_of_all es (by rintro rfl; exact some rfl) each
    exact ⟨_, .der items⟩
  · obtain ⟨e, rfl⟩ := List.length_eq_one_iff.1 one
    obtain ⟨_, inside⟩ := each e List.mem_cons_self
    obtain rfl | rfl := sign
    · exact ⟨_, .paren (.simple (.neg (.bare inside)))⟩
    · exact ⟨_, .paren (.simple (.not_ (Nat.zero_le _) (.bare inside)))⟩
  · obtain ⟨l, es, rfl⟩ := List.exists_cons_of_length_eq_add_one two
    obtain ⟨r, rfl⟩ := List.length_eq_one_iff.1 (Nat.succ.inj two)
    obtain ⟨_, left⟩ := each l (by simp)
    obtain ⟨_, right⟩ := each r (by simp)
    obtain rfl | rfl | binds := binds
    · exact ⟨_, .paren (.simple (.power (.inl rfl) left right))⟩
    · exact ⟨_, .paren (.simple (.power (.inr rfl) left right))⟩
    · obtain ⟨own, level⟩ := Option.isSome_iff_exists.1 binds
      exact ⟨_, .paren (.simple (.binary level (Nat.zero_le _) (.bare left) (.bare right)))⟩

theorem literal_of_writable (v : Literal) (writable : v.Writable) : ∃ ws, Printed (.primary (.literal v)) ws := by
  cases v with
  | string s => exact ⟨_, .string writable⟩
  | bool b => exact ⟨_, .bool b⟩
  | integer =>
    obtain ⟨n, rfl, small⟩ := writable
    exact ⟨_, .number (.toDigits n small)⟩
  | real =>
    obtain ⟨s, numeral⟩ := writable
    exact ⟨_, .number numeral⟩
  | absent => cases writable

end Printed

-- Brackets around everything always do.
mutual

theorem Expr.Writable.printed (e : Expr) (writable : e.Writable) : ∃ ws, Printed (.primary e) ws := by
  match e with
  | .literal v => exact Printed.literal_of_writable v writable
  | .ref r =>
    obtain ⟨_, reference⟩ := ComponentRef.Writable.printed r writable
    exact ⟨_, .ref reference⟩
  | .apply (.function f) es =>
    obtain ⟨called, some, each⟩ := writable
    obtain ⟨_, function⟩ := ComponentRef.Writable.printed f called
    obtain ⟨_, items⟩ := Printed.items_of_all es some (Expr.AllWritable.printed es each)
    exact ⟨_, .call function items⟩
  | .apply (.named name) es =>
    exact Printed.apply_of_all name es writable.1 (Expr.AllWritable.printed es writable.2)
  | .conditional cs vs =>
    obtain ⟨some, one, conditions, values⟩ := writable
    exact Printed.conditional_of_all cs vs some one (Expr.AllWritable.printed cs conditions)
      (Expr.AllWritable.printed vs values)
  | .array es =>
    obtain ⟨_, items⟩ := Printed.items_of_all es writable.1 (Expr.AllWritable.printed es writable.2)
    exact ⟨_, .array items⟩

theorem Expr.AllWritable.printed (es : List Expr) (writable : Expr.AllWritable es) :
    ∀ e ∈ es, ∃ ws, Printed (.primary e) ws := by
  match es with
  | [] => exact List.forall_mem_nil _
  | e :: es =>
    exact List.forall_mem_cons.2 ⟨Expr.Writable.printed e writable.1, Expr.AllWritable.printed es writable.2⟩

theorem Expr.SubscriptsWritable.printed (es : List Expr) (writable : Expr.SubscriptsWritable es) :
    ∀ e ∈ es, ∃ ws, Printed (.subscript e) ws := by
  match es with
  | [] => exact List.forall_mem_nil _
  | e :: es =>
    refine List.forall_mem_cons.2 ⟨?_, Expr.SubscriptsWritable.printed es writable.2⟩
    obtain rfl | inside := writable.1
    · exact ⟨_, .allOf⟩
    · obtain ⟨_, primary⟩ := Expr.Writable.printed e inside
      exact ⟨_, .index (.simple (.bare primary))⟩

theorem ComponentRef.Writable.printed (r : ComponentRef) (writable : r.Writable) : ∃ ws, Printed (.reference r) ws := by
  match r with
  | .mk name [none] none => exact ⟨_, .lastPart (.plainPart writable)⟩
  | .mk name [none] (some r) =>
    obtain ⟨_, rest⟩ := ComponentRef.Writable.printed r writable.2
    exact ⟨_, .dotted (.plainPart writable.1) rest⟩
  | .mk name [some es] none =>
    obtain ⟨isName, some, each⟩ := writable
    obtain ⟨_, inside⟩ := Printed.subscripts_of_all es some (Expr.SubscriptsWritable.printed es each)
    exact ⟨_, .lastPart (.subscriptedPart isName inside)⟩
  | .mk name [some es] (some r) =>
    obtain ⟨⟨isName, some, each⟩, child⟩ := writable
    obtain ⟨_, inside⟩ := Printed.subscripts_of_all es some (Expr.SubscriptsWritable.printed es each)
    obtain ⟨_, rest⟩ := ComponentRef.Writable.printed r child
    exact ⟨_, .dotted (.subscriptedPart isName inside) rest⟩

end

end Modelica
