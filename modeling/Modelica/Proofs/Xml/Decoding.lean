import Mathlib.Data.Set.Function
import Modelica.Proofs.Script.Meaning
import Modelica.Xml.Model

set_option autoImplicit false

namespace Modelica

def Operator.name : Operator → String
  | .named o => o
  | .function r => r.name

mutual

-- An expression with every function known by its name alone.
def Expr.byName : Expr → Expr
  | .apply o es => .apply (.named o.name) (Expr.allByName es)
  | e => e

def Expr.allByName : List Expr → List Expr
  | [] => []
  | e :: es => e.byName :: Expr.allByName es

end

inductive Expr.Simple (reals : Set Binary64) (names : Set String) : Expr → Prop
  | bool (b : Bool) : Simple reals names (.literal (.bool b))
  | integer (n : Int) : Simple reals names (.literal (.integer n))
  | real {x : Binary64} : x ∈ reals → Simple reals names (.literal (.real x))
  | ref {name : String} : name ∈ names → Simple reals names (.ref (.simple name))
  | operator {name : String} {es : List Expr} : name ∈ names → (∀ e ∈ es, Simple reals names e) →
      Simple reals names (.apply (.named name) es)
  | call {name : String} {es : List Expr} : name ∈ names → (∀ e ∈ es, Simple reals names e) →
      Simple reals names (.apply (.function (.simple name)) es)

namespace Decimal

def marks : List Char := ['.', 'e', '+', '-', 'i', 'n', 'f', 'a']

def isMark (c : Char) : Bool := c.isDigit || marks.contains c

theorem all_isMark_of_digits {cs : List Char} (digits : ∀ c ∈ cs, c.isDigit = true) : cs.all isMark = true :=
  List.all_eq_true.2 fun c member => by rw [isMark, digits c member, Bool.true_or]

theorem toList_write (x : Binary64) : (plain.write x).toList = "nan".toList ∨
    ∃ sign cs, (plain.write x).toList = sign ++ cs ∧ (sign = [] ∨ sign = ['-']) ∧
      (cs = "inf".toList ∨ cs = "0.0".toList ∨ cs = plain.place (shortest x)) := by
  have sign : (if x.isNegative then "-" else "").toList = [] ∨ (if x.isNegative then "-" else "").toList = ['-'] := by
    split
    · exact .inr rfl
    · exact .inl rfl
  unfold Layout.write
  split
  · exact .inl rfl
  · dsimp only
    split
    · exact .inr ⟨_, _, String.toList_append, sign, .inl rfl⟩
    · split
      · exact .inr ⟨_, _, String.toList_append, sign, .inr (.inl rfl)⟩
      · exact .inr ⟨_, _, String.toList_append, sign, .inr (.inr String.toList_ofList)⟩

theorem all_isMark_of_isDecimal {cs : List Char} (decimal : Formula.IsDecimal cs) : cs.all isMark = true := by
  obtain ⟨whole, part, exponent, -, digits, pointed, signed⟩ := decimal
  rw [List.all_append, List.all_append, all_isMark_of_digits digits, Bool.true_and, Bool.and_eq_true]
  constructor
  · obtain rfl | ⟨ds, rfl, digits⟩ := pointed
    · rfl
    · rw [List.all_cons, all_isMark_of_digits digits]
      rfl
  · obtain rfl | ⟨sign, ds, rfl, signs, digits⟩ := signed
    · rfl
    · rw [List.all_cons, List.all_cons, all_isMark_of_digits digits]
      obtain rfl | rfl := signs <;> rfl

theorem all_isMark_write (x : Binary64) : (plain.write x).toList.all isMark = true := by
  obtain same | ⟨sign, cs, same, signs, one⟩ := toList_write x
  · rw [same]
    rfl
  rw [same, List.all_append, Bool.and_eq_true]
  refine ⟨by obtain rfl | rfl := signs <;> rfl, ?_⟩
  obtain rfl | rfl | rfl := one
  · rfl
  · rfl
  · have ⟨some_digit, digits⟩ := Script.digits_shortestFrom x 1 17
    exact all_isMark_of_isDecimal (Script.isDecimal_place plain (shortest x) some_digit digits)

-- The text of a double is not that of an integer.
theorem write_not_integer (x : Binary64) : (plain.write x).toList.all (fun c => c.isDigit || c == '-') = false := by
  obtain same | ⟨sign, cs, same, -, one⟩ := toList_write x
  · rw [same]
    rfl
  rw [same, List.all_append, Bool.and_eq_false_iff]
  right
  obtain rfl | rfl | rfl := one
  · rfl
  · rfl
  unfold Layout.place
  dsimp only
  split
  · refine List.all_eq_false.2 ⟨'.', ?_, by decide⟩
    split <;> simp
  · exact List.all_eq_false.2 ⟨'e', by simp [exponentPart], by decide⟩

end Decimal

namespace Xml

def readInteger (cs : List Char) : Int :=
  if cs.head? = some '-' then -(Decimal.digitsValue cs.tail : Int) else Decimal.digitsValue cs

-- A literal from its text. Doubles are read by a function that is given.
def readLiteral (real : String → Binary64) (text : String) : Literal :=
  if text = "True" then .bool true
  else if text = "False" then .bool false
  else if text.toList.all fun c => c.isDigit || c == '-' then .integer (readInteger text.toList)
  else .real (real text)

mutual

def Element.decode (real : String → Binary64) : Element → Option Expr
  | .mk tag [(_, text)] children _ =>
    if tag = "real" then some (.literal (readLiteral real text))
    else if tag = "local" then some (.ref (.simple text))
    else (Element.decodeAll real children).map (.apply (.named text))
  | _ => none

def Element.decodeAll (real : String → Binary64) : List Element → Option (List Expr)
  | [] => some []
  | x :: xs => do
    let e ← x.decode real
    return e :: (← Element.decodeAll real xs)

end

def legal (s : String) : Bool := s.toList.all isLegal

theorem legal_of_marks {s : String} (marks : s.toList.all Decimal.isMark = true) : legal s = true := by
  refine List.all_eq_true.2 fun c member => ?_
  obtain digit | mark := Bool.or_eq_true_iff.1 (List.all_eq_true.1 marks c member)
  · simp only [Char.isDigit, Bool.and_eq_true, decide_eq_true_eq] at digit
    have low : 48 ≤ c.toNat := digit.1
    have high : c.toNat ≤ 57 := digit.2
    simp only [isLegal, Bool.and_eq_true, Bool.or_eq_true, decide_eq_true_eq]
    omega
  · have all : Decimal.marks.all isLegal = true := by decide
    exact List.all_eq_true.1 all c (List.contains_iff_mem.1 mark)

section Literals

variable (real : String → Binary64)

theorem readLiteral_bool (b : Bool) : readLiteral real (Literal.text (.bool b)) = .bool b := by
  cases b <;> rfl

theorem readLiteral_digits {text : String} {cs : List Char} (same : text.toList = cs)
    (digits : ∀ c ∈ cs, c.isDigit = true ∨ c = '-') :
    legal text = true ∧ readLiteral real text = .integer (readInteger cs) := by
  subst same
  have all : text.toList.all (fun c => c.isDigit || c == '-') = true := by simpa using digits
  refine ⟨legal_of_marks (List.all_eq_true.2 fun c member => ?_), ?_⟩
  · obtain digit | rfl := digits c member
    · rw [Decimal.isMark, digit, Bool.true_or]
    · rfl
  · unfold readLiteral
    rw [if_neg (by rintro rfl; cases all), if_neg (by rintro rfl; cases all), if_pos all]

theorem readLiteral_integer (n : Int) : legal (Literal.text (.integer n)) = true ∧
    readLiteral real (Literal.text (.integer n)) = .integer n := by
  cases n with
  | ofNat m =>
    have digits := (Script.digits_toDigits m).2
    have read := readLiteral_digits real String.toList_ofList fun c member => .inl (digits c member)
    rw [readInteger, if_neg, Decimal.digitsValue_toDigits] at read
    · exact read
    · exact fun minus => absurd (digits _ (List.mem_of_mem_head? minus)) (by decide)
  | negSucc m =>
    have minus : ("-" ++ Nat.repr (m + 1)).toList = '-' :: Nat.toDigits 10 (m + 1) := by
      rw [String.toList_append]
      exact congrArg ('-' :: ·) String.toList_ofList
    have read := readLiteral_digits real minus (List.forall_mem_cons.2 ⟨.inr rfl, fun c member =>
      .inl ((Script.digits_toDigits _).2 c member)⟩)
    rw [readInteger, List.head?_cons, if_pos rfl, List.tail_cons, Decimal.digitsValue_toDigits] at read
    exact read

theorem readLiteral_real {x : Binary64} (reads : real (Decimal.plain.write x) = x) :
    readLiteral real (Literal.text (.real x)) = .real x := by
  have other : ∀ text : String, text.toList.all Decimal.isMark = false → Decimal.plain.write x ≠ text := by
    rintro _ strange rfl
    exact Bool.false_ne_true (strange.symm.trans (Decimal.all_isMark_write x))
  show readLiteral real (Decimal.plain.write x) = _
  unfold readLiteral
  rw [if_neg (other _ (by decide)), if_neg (other _ (by decide)),
    if_neg (Bool.eq_false_iff.1 (Decimal.write_not_integer x)), reads]

end Literals

section Items

variable {ctx : Context} {real : String → Binary64} {names : Set String} {α β : Type}

theorem bind_ok {x : Making α} {a : α} {m n : Made} (ran : x m = .ok (a, n)) (f : α → Making β) :
    (x >>= f) m = f a n := by
  show Except.bind (x m) _ = _
  rw [ran]
  rfl

theorem bind_error {x : Making α} {e : Error} {m : Made} (ran : x m = .error e) (f : α → Making β) :
    (x >>= f) m = .error e := by
  show Except.bind (x m) _ = _
  rw [ran]
  rfl

-- The element is made and can be read back, or a name has a character that no element may have.
def Readable (real : String → Binary64) (names : Set String) (x : Making Item) (e : Expr) : Prop :=
  ∀ m, (∃ y, x m = .ok (.element y, m) ∧ y.decode real = some e) ∨
    x m = .error .illegalCharacter ∧ ∃ n ∈ names, legal n = false

theorem make_eq (tag key text : String) (children : List Element) (m : Made) :
    make tag [(key, text)] children m = if legal text then
      .ok (.mk tag [(key, text)] children none, m) else .error .illegalCharacter := by
  unfold make legal
  rw [List.all_cons, List.all_nil, Bool.and_true]
  split <;> rfl

theorem readable_literal {v : Literal} (fits : legal v.text = true) (reads : readLiteral real v.text = v) :
    Readable real names (item ctx (.literal v)) (.literal v) := by
  intro m
  have made := make_eq "real" "value" v.text [] m
  rw [if_pos fits] at made
  refine .inl ⟨_, bind_ok made _, ?_⟩
  rw [Element.decode, if_pos rfl, reads]

theorem visitRef_simple (ctx : Context) (name : String) (m : Made) : visitRef ctx (.simple name) m =
    if legal name then .ok ((), m) else .error .illegalCharacter := by
  unfold ComponentRef.simple visitRef visitGroups visitGroups
  rw [pure_bind]
  show Except.bind (make _ _ _ m) _ = _
  rw [make_eq]
  split <;> rfl

theorem readable_of_visitRef {name : String} (member : name ∈ names) {x : Making Item} {e : Expr}
    (readable : Readable real names x e) : Readable real names (visitRef ctx (.simple name) >>= fun _ => x) e := by
  intro m
  have visited := visitRef_simple ctx name m
  split at visited
  · rw [bind_ok visited]
    exact readable m
  · next illegal => exact .inr ⟨bind_error visited _, name, member, Bool.eq_false_iff.2 illegal⟩

theorem getAll_elements (xs : List Element) (m : Made) : Item.getAll (xs.map .element) m = .ok (xs, m) := by
  induction xs with
  | nil => rfl
  | cons x xs ih =>
    rw [List.map_cons, Item.getAll, Item.get, pure_bind, bind_ok ih]
    rfl

theorem readable_items {es : List Expr} (each : ∀ e ∈ es, Readable real names (item ctx e) e.byName)
    (m : Made) : (∃ xs, items ctx es m = .ok (xs.map .element, m) ∧
        Element.decodeAll real xs = some (Expr.allByName es)) ∨
      items ctx es m = .error .illegalCharacter ∧ ∃ n ∈ names, legal n = false := by
  induction es with
  | nil => exact .inl ⟨[], rfl, rfl⟩
  | cons e es ih =>
    rw [items]
    obtain ⟨x, first, read⟩ | ⟨first, illegal⟩ := each e List.mem_cons_self m
    · rw [bind_ok first]
      obtain ⟨xs, rest, reads⟩ | ⟨rest, illegal⟩ := ih fun e member => each e (List.mem_cons_of_mem _ member)
      · refine .inl ⟨x :: xs, bind_ok rest _, ?_⟩
        rw [Element.decodeAll, read, reads]
        rfl
      · exact .inr ⟨bind_error rest _, illegal⟩
    · exact .inr ⟨bind_error first _, illegal⟩

theorem readable_apply {name : String} {es : List Expr} (member : name ∈ names)
    (each : ∀ e ∈ es, Readable real names (item ctx e) e.byName) :
    Readable real names (do
      let es ← items ctx es
      return .element (← applied name es)) (.apply (.named name) (Expr.allByName es)) := by
  intro m
  obtain ⟨xs, made, reads⟩ | ⟨failed, illegal⟩ := readable_items each m
  · rw [bind_ok made]
    obtain ⟨tag, key, other, same⟩ : ∃ tag key, (tag ≠ "real" ∧ tag ≠ "local") ∧
        applied name (xs.map .element) m = make tag [(key, name)] xs m := by
      rw [applied, bind_ok (getAll_elements xs m)]
      split
      · exact ⟨"operator", "name", by decide, rfl⟩
      · exact ⟨"apply", "builtin", by decide, rfl⟩
    rw [make_eq] at same
    split at same
    · refine .inl ⟨_, bind_ok same _, ?_⟩
      rw [Element.decode, if_neg other.1, if_neg other.2, reads]
      rfl
    · next illegal => exact .inr ⟨bind_error same _, name, member, Bool.eq_false_iff.2 illegal⟩
  · exact .inr ⟨bind_error failed _, illegal⟩

theorem readable_item {reals : Set Binary64} (reads : ∀ x ∈ reals, real (Decimal.plain.write x) = x)
    {e : Expr} (simple : e.Simple reals names) : Readable real names (item ctx e) e.byName := by
  induction simple with
  | bool b => exact readable_literal (by cases b <;> decide) (readLiteral_bool real b)
  | integer n => exact readable_literal (readLiteral_integer real n).1 (readLiteral_integer real n).2
  | @real x member =>
    exact readable_literal (legal_of_marks (Decimal.all_isMark_write x)) (readLiteral_real real (reads x member))
  | ref member => exact readable_of_visitRef member fun m => .inl ⟨_, rfl, rfl⟩
  | operator member _ ih => exact readable_apply member ih
  | call member _ ih => exact readable_of_visitRef member (readable_apply member ih)

end Items

-- Where the texts of doubles tell them apart, the element of an expression determines it. The element is made
-- unless a name has an illegal character.
theorem item_determines (reals : Set Binary64) (apart : Set.InjOn Decimal.plain.write reals) :
    ∃ decode : Element → Option Expr, ∀ (ctx : Context) (names : Set String) (e : Expr),
      e.Simple reals names → ∀ m,
        (∃ x, item ctx e m = .ok (.element x, m) ∧ decode x = some e.byName) ∨
          item ctx e m = .error .illegalCharacter ∧ ∃ n ∈ names, legal n = false :=
  ⟨Element.decode (Function.invFunOn Decimal.plain.write reals), fun _ _ _ simple =>
    readable_item (fun _ member => apart.leftInvOn_invFunOn member) simple⟩

-- The product `1.5 * f(-2, x)`.
def scaledCall : Expr :=
  .apply (.named "*") [.literal (.real ⟨0x3FF8000000000000⟩),
    .apply (.function (.simple "f")) [.literal (.integer (-2)), .ref (.simple "x")]]

theorem scaledCall_determined :
    Set.InjOn Decimal.plain.write {⟨0x3FF8000000000000⟩, ⟨0x4004000000000000⟩} ∧
    ∃ (decode : Element → Option Expr) (x : Element),
      item ⟨{}, fun _ => pure ()⟩ scaledCall {} = .ok (.element x, {}) ∧
      decode x = some scaledCall.byName := by
  have apart : Set.InjOn Decimal.plain.write {⟨0x3FF8000000000000⟩, ⟨0x4004000000000000⟩} := by
    refine Set.injOn_pair.2 fun same => ?_
    revert same
    decide +kernel
  have simple : scaledCall.Simple {⟨0x3FF8000000000000⟩, ⟨0x4004000000000000⟩} {"*", "f", "x"} := by
    refine .operator (by simp) (List.forall_mem_cons.2 ⟨.real (by simp), List.forall_mem_singleton.2 ?_⟩)
    refine .call (by simp) (List.forall_mem_cons.2 ⟨.integer (-2), List.forall_mem_singleton.2 ?_⟩)
    exact .ref (by simp)
  obtain ⟨decode, reads⟩ := item_determines _ apart
  obtain ⟨x, made, read⟩ | ⟨-, n, rfl | rfl | rfl, illegal⟩ := reads ⟨{}, fun _ => pure ()⟩ _ _ simple {}
  · exact ⟨apart, decode, x, made, read⟩
  all_goals exact absurd illegal (by decide)

end Xml

end Modelica
