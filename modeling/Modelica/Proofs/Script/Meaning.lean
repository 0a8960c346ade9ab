import Modelica.Proofs.Formula.Written
import Modelica.Script

set_option autoImplicit false

namespace Modelica

open Formula

def Literal.number? : Literal → Option String
  | .integer n => if 0 ≤ n then some (toString n) else none
  | .real x =>
    if x.isNaN || x.isInfinite || x.isNegative then none else some (Decimal.plain.write x)
  | _ => none

def frontSign? : String → Option FormulaSign
  | "+" => some .plus
  | "-" => some .minus
  | _ => none

def betweenSign? : String → Option FormulaSign
  | "+" => some .plus
  | "-" => some .minus
  | "*" => some .times
  | "/" => some .over
  | "^" => some .power
  | _ => none

def isPlainFunction (f : String) : Bool :=
  f ≠ "der" && (betweenSign? f).isNone

mutual

-- The formula that an expression stands for, whatever is written for it: numbers, components without
-- subscripts, signs, derivatives and calls.
def Expr.formula? : Expr → Option Formula
  | .literal v => v.number?.map .number
  | .ref (.mk n groups none) =>
    if groups.all Option.isNone && !constants.contains (Script.mangle n) then
      some (.name (Script.mangle n))
    else none
  | .apply (.named "der") [e] => e.formula?.map .diff
  | .apply (.named o) [e] => do
    let s ← frontSign? o
    let e ← e.formula?
    return .signed s e
  | .apply (.named o) [l, r] => do
    let s ← betweenSign? o
    let l ← l.formula?
    let r ← r.formula?
    return .binary s l r
  | .apply (.function (.mk f groups none)) es =>
    if groups.all Option.isNone && isPlainFunction f then (Expr.formulas? es).map (.call f)
    else none
  | _ => none

def Expr.formulas? : List Expr → Option (List Formula)
  | [] => some []
  | e :: es => do
    let e ← e.formula?
    let es ← Expr.formulas? es
    return e :: es

end

section Cases

variable (motive : Expr → Formula → Prop) (motives : List Expr → List Formula → Prop)
  (number : ∀ v t, v.number? = some t → motive (.literal v) (.number t))
  (name : ∀ n groups, groups.all Option.isNone = true → Script.mangle n ∉ constants →
    motive (.ref (.mk n groups none)) (.name (Script.mangle n)))
  (diff : ∀ e f, motive e f → motive (.apply (.named "der") [e]) (.diff f))
  (front : ∀ o s e f, frontSign? o = some s → motive e f →
    motive (.apply (.named o) [e]) (.signed s f))
  (between : ∀ o s l r f g, betweenSign? o = some s → motive l f → motive r g →
    motive (.apply (.named o) [l, r]) (.binary s f g))
  (call : ∀ n groups es fs, groups.all Option.isNone = true → isPlainFunction n = true →
    motives es fs → motive (.apply (.function (.mk n groups none)) es) (.call n fs))
  (nil : motives [] [])
  (cons : ∀ e f es fs, motive e f → motives es fs → motives (e :: es) (f :: fs))
include number name diff front between call nil cons

set_option linter.unusedSectionVars false in
mutual

theorem Expr.formula_cases (e : Expr) (f : Formula) (stands : e.formula? = some f) : motive e f := by
  cases e with
  | literal v =>
    obtain ⟨t, found, rfl⟩ := Option.map_eq_some_iff.1 stands
    exact number v t found
  | ref r =>
    obtain ⟨n, groups, child⟩ := r
    cases child with
    | some c => simp [Expr.formula?] at stands
    | none =>
      simp only [Expr.formula?, Option.ite_none_right_eq_some, Bool.and_eq_true,
        Bool.not_eq_true', List.contains_eq_mem, decide_eq_false_iff_not,
        Option.some_inj] at stands
      obtain ⟨⟨plain, free⟩, rfl⟩ := stands
      exact name n groups plain free
  | apply operator es =>
    cases operator with
    | named o =>
      match es with
      | [e] =>
        by_cases der : o = "der"
        · subst der
          obtain ⟨f, operand, rfl⟩ := Option.map_eq_some_iff.1 stands
          exact diff e f (Expr.formula_cases e f operand)
        · simp only [Expr.formula?, Option.bind_eq_bind, Option.bind_eq_some_iff] at stands
          obtain ⟨s, sign, f, operand, done⟩ := stands
          cases done
          exact front o s e f sign (Expr.formula_cases e f operand)
      | [l, r] =>
        simp only [Expr.formula?, Option.bind_eq_bind, Option.bind_eq_some_iff] at stands
        obtain ⟨s, sign, f, left, g, right, done⟩ := stands
        cases done
        exact between o s l r f g sign (Expr.formula_cases l f left) (Expr.formula_cases r g right)
      | [] | _ :: _ :: _ :: _ => simp [Expr.formula?] at stands
    | function r =>
      obtain ⟨n, groups, child⟩ := r
      cases child with
      | some c => simp [Expr.formula?] at stands
      | none =>
        simp only [Expr.formula?, Option.ite_none_right_eq_some, Bool.and_eq_true] at stands
        obtain ⟨⟨plain, function⟩, stands⟩ := stands
        obtain ⟨fs, operands, rfl⟩ := Option.map_eq_some_iff.1 stands
        exact call n groups es fs plain function (Expr.formulas_cases es fs operands)
  | _ => simp [Expr.formula?] at stands

theorem Expr.formulas_cases (es : List Expr) (fs : List Formula)
    (stands : Expr.formulas? es = some fs) : motives es fs := by
  cases es with
  | nil =>
    cases stands
    exact nil
  | cons e es =>
    simp only [Expr.formulas?, Option.bind_eq_bind, Option.bind_eq_some_iff] at stands
    obtain ⟨f, first, fs, others, done⟩ := stands
    cases done
    exact cons e f es fs (Expr.formula_cases e f first) (Expr.formulas_cases es fs others)

end

end Cases

namespace Script

theorem number_text (v : Literal) (t : String) (number : v.number? = some t) : v.text = t := by
  cases v with
  | integer n =>
    simp only [Literal.number?, Option.ite_none_right_eq_some, Option.some_inj] at number
    exact number.2
  | real x =>
    simp only [Literal.number?, Option.ite_none_left_eq_some, Option.some_inj] at number
    exact number.2
  | _ => simp [Literal.number?] at number

theorem isDecimal_of_digits (cs : List Char) (some_digit : cs ≠ [])
    (digits : ∀ c ∈ cs, c.isDigit = true) : IsDecimal cs := by
  simpa using IsDecimal.mk cs [] [] some_digit digits (.inl rfl) (.inl rfl)

theorem digits_toDigits (n : Nat) : Nat.toDigits 10 n ≠ [] ∧ ∀ c ∈ Nat.toDigits 10 n, c.isDigit = true :=
  ⟨Nat.toDigits_ne_nil, fun _ member => Nat.isDigit_of_mem_toDigits (by decide) (by decide) member⟩

theorem digits_zeros (n : Nat) : ∀ c ∈ Decimal.zeros n, c.isDigit = true := by
  intro c member
  rw [List.eq_of_mem_replicate member]
  decide

theorem digits_shortestFrom (x : Binary64) (count fuel : Nat) : (Decimal.shortestFrom x count fuel).digits ≠ [] ∧
      ∀ c ∈ (Decimal.shortestFrom x count fuel).digits, c.isDigit = true := by
  induction fuel generalizing count with
  | zero => simp [Decimal.shortestFrom]
  | succ fuel ih =>
    unfold Decimal.shortestFrom
    split
    · exact digits_toDigits _
    · exact ih (count + 1)

theorem digits_exponentPart (e : Int) : ∃ sign ds, Decimal.exponentPart e = 'e' :: sign :: ds ∧
    (sign = '-' ∨ sign = '+') ∧ ∀ c ∈ ds, c.isDigit = true := by
  refine ⟨_, _, rfl, ?_, ?_⟩
  · split <;> simp
  · intro c member
    obtain zero | digit := List.mem_append.1 member
    · exact digits_zeros _ c zero
    · exact (digits_toDigits _).2 c digit

theorem isDecimal_place (layout : Decimal.Layout) (d : Decimal.Digits) (some_digit : d.digits ≠ [])
    (digits : ∀ c ∈ d.digits, c.isDigit = true) : IsDecimal (layout.place d) := by
  have before : ∀ n, ∀ c ∈ d.digits.take n, c.isDigit = true := fun n c member => digits c (List.mem_of_mem_take member)
  have behind : ∀ n, ∀ c ∈ d.digits.drop n, c.isDigit = true := fun n c member => digits c (List.mem_of_mem_drop member)
  unfold Decimal.Layout.place
  simp only
  split
  · split
    · next small =>
      have part : ∀ c ∈ Decimal.zeros (-d.point).toNat ++ d.digits, c.isDigit = true := by
        intro c member
        obtain zero | digit := List.mem_append.1 member
        · exact digits_zeros _ c zero
        · exact digits c digit
      simpa using IsDecimal.mk ['0'] _ [] (by simp) (by simp) (.inr ⟨_, rfl, part⟩) (.inl rfl)
    · next large =>
      let whole := d.digits.take d.point.toNat
      let rest := d.digits.drop d.point.toNat
      have filled : ∀ c ∈ whole ++ Decimal.zeros (d.point.toNat - whole.length), c.isDigit = true := by
        intro c member
        obtain digit | zero := List.mem_append.1 member
        · exact before _ c digit
        · exact digits_zeros _ c zero
      have nonempty : whole ++ Decimal.zeros (d.point.toNat - whole.length) ≠ [] := by
        intro empty
        have length := congrArg List.length empty
        simp only [Decimal.zeros, List.length_append, List.length_replicate, List.length_nil] at length
        omega
      have part : ∀ c ∈ if rest.isEmpty then ['0'] else rest, c.isDigit = true := by
        split
        · simp
        · exact behind _
      have written := IsDecimal.mk _ _ [] nonempty filled (.inr ⟨_, rfl, part⟩) (.inl rfl)
      rwa [List.append_nil] at written
  · have first : d.digits.take 1 ≠ [] := by simpa using some_digit
    refine IsDecimal.mk _ _ _ first (before 1) ?_ (.inr (digits_exponentPart _))
    split
    · exact .inl rfl
    · exact .inr ⟨_, rfl, behind 1⟩

theorem isDecimal_number (v : Literal) (t : String) (number : v.number? = some t) : IsDecimal t.toList := by
  cases v with
  | integer n =>
    simp only [Literal.number?, Option.ite_none_right_eq_some, Option.some_inj] at number
    obtain ⟨m, rfl⟩ := Int.eq_ofNat_of_zero_le number.1
    have written : t.toList = Nat.toDigits 10 m := by
      rw [← number.2]
      exact String.toList_ofList
    rw [written]
    exact isDecimal_of_digits _ (digits_toDigits m).1 (digits_toDigits m).2
  | real x =>
    simp only [Literal.number?, Option.ite_none_left_eq_some, Option.some_inj, Bool.or_eq_true,
      not_or, Bool.not_eq_true] at number
    obtain ⟨⟨⟨notNaN, finite⟩, positive⟩, rfl⟩ := number
    simp only [Decimal.Layout.write, notNaN, finite, positive, Bool.false_eq_true, if_false]
    split
    · simpa using IsDecimal.mk ['0'] ['.', '0'] [] (by simp) (by simp) (.inr ⟨['0'], rfl, by simp⟩) (.inl rfl)
    · have ⟨some_digit, digits⟩ := digits_shortestFrom x 1 17
      simpa using isDecimal_place Decimal.plain (Decimal.shortest x) some_digit digits
  | _ => simp [Literal.number?] at number

theorem visitGroups_none (ctx : Context) (groups : List (Option (List Expr)))
    (plain : groups.all Option.isNone = true) : visitGroups ctx groups = .ok () := by
  induction groups with
  | nil => rfl
  | cons group groups ih =>
    cases group with
    | none => exact ih (by simpa using plain)
    | some es => simp at plain

theorem getAll_texts (fs : List Formula) : Fragment.getAll ((texts fs).map .text) = .ok (texts fs) := by
  induction fs with
  | nil => rfl
  | cons f fs ih => simp [texts, Fragment.getAll, Fragment.get, ih]; rfl

theorem applied_front (o : String) (s : FormulaSign) (front : frontSign? o = some s)
    (e : String) : applied (.named o) [.text e] = .ok (signText s ++ " " ++ e) := by
  unfold frontSign? at front
  split at front <;> cases front <;> rfl

theorem applied_between (o : String) (s : FormulaSign) (between : betweenSign? o = some s) (l r : String) :
    applied (.named o) [.text l, .text r] = .ok (l ++ " " ++ signText s ++ " " ++ r) := by
  unfold betweenSign? at between
  split at between <;> cases between <;> rfl

theorem sign_of_betweenSign_none (o : String) (none : (betweenSign? o).isNone = true) :
    o ∉ ["*", "+", "-", "/", "^"] := by
  intro member
  simp only [List.mem_cons, List.not_mem_nil, or_false] at member
  obtain rfl | rfl | rfl | rfl | rfl := member <;> simp [betweenSign?] at none

theorem applied_function (f : String) (groups : List (Option (List Expr)))
    (plain : isPlainFunction f = true) (fs : List Formula) :
    applied (.function (.mk f groups none)) ((texts fs).map .text) =
      .ok (f ++ "(" ++ Text.join "," (texts fs) ++ ")") := by
  simp only [isPlainFunction, Bool.and_eq_true, decide_eq_true_eq] at plain
  obtain ⟨notDer, notSign⟩ := plain
  have between := sign_of_betweenSign_none f notSign
  have front : f ∉ ["+", "-"] := by
    intro member
    apply between
    simp only [List.mem_cons, List.not_mem_nil, or_false] at member
    obtain rfl | rfl := member <;> simp
  have call : called (.function (.mk f groups none)) ((texts fs).map .text) =
      .ok (f ++ "(" ++ Text.join "," (texts fs) ++ ")") := by
    simp only [called, getAll_texts]
    rfl
  have name : ComponentRef.text (.mk f groups none) = f := by
    simp [ComponentRef.text, ComponentRef.names, Text.join]
  rw [← call]
  unfold applied
  simp only [name]
  split
  · contradiction
  · contradiction
  · split
    · rw [if_neg (by simpa using between)]
    · rw [if_neg (by simpa using front)]
    · rfl

theorem fragment_of_formula (ctx : Context) (e : Expr) (f : Formula)
    (stands : e.formula? = some f) : fragment ctx e = .ok (.text f.text) := by
  refine Expr.formula_cases (fun e f => fragment ctx e = .ok (.text f.text))
    (fun es fs => fragments ctx es = .ok ((texts fs).map .text)) ?_ ?_ ?_ ?_ ?_ ?_ ?_ ?_ e f stands
  · intro v t number
    rw [fragment, number_text v t number]
    rfl
  · intro n groups plain _
    simp only [fragment, visitRef, visitGroups_none ctx groups plain]
    rfl
  · intro e f operand
    simp only [fragment, fragments, operand]
    rfl
  · intro o s e f sign operand
    simp only [fragment, fragments, operand]
    exact congrArg (Except.map Fragment.text) (applied_front o s sign f.text)
  · intro o s l r f g sign left right
    simp only [fragment, fragments, left, right]
    exact congrArg (Except.map Fragment.text) (applied_between o s sign f.text g.text)
  · intro n groups es fs plain function operands
    simp only [fragment, visitRef, visitGroups_none ctx groups plain, operands]
    exact congrArg (Except.map Fragment.text) (applied_function n groups function fs)
  · rfl
  · intro e f es fs first others
    simp only [fragments, first, others]
    rfl

theorem equation_of_formulas (ctx : Context) (l r : Expr) (comment : String) (f g : Formula)
    (left : l.formula? = some f) (right : r.formula? = some g) :
    equation ctx (.simple l r comment) = .ok (differenceText f g) := by
  simp only [equation, fragment_of_formula ctx l f left, fragment_of_formula ctx r g right]
  rfl

end Script

namespace Formula

mutual

def Named : Formula → Prop
  | .number _ => True
  | .name s => isIdentifier s = true
  | .signed _ e => e.Named
  | .binary _ l r => l.Named ∧ r.Named
  | .call f es => isIdentifier f = true ∧ AllNamed es
  | .diff e => e.Named

def AllNamed : List Formula → Prop
  | [] => True
  | e :: es => e.Named ∧ AllNamed es

end

theorem isIdentifier_iff (s : String) : isIdentifier s = true ↔ IsWord s ∧ s ∉ keywords := by
  unfold isIdentifier IsWord
  split
  · next empty => simp [empty]
  · next c cs same =>
    simp only [same, Bool.and_eq_true, List.all_eq_true, Bool.not_eq_true', List.contains_eq_mem,
      decide_eq_false_iff_not, List.cons.injEq]
    constructor
    · rintro ⟨⟨start, more⟩, free⟩
      exact ⟨⟨c, cs, ⟨rfl, rfl⟩, start, more⟩, free⟩
    · rintro ⟨⟨_, _, ⟨rfl, rfl⟩, start, more⟩, free⟩
      exact ⟨⟨start, more⟩, free⟩

theorem readable_iff_named (e : Expr) (f : Formula) (stands : e.formula? = some f) : f.Readable ↔ f.Named := by
  refine Expr.formula_cases (fun _ f => f.Readable ↔ f.Named)
    (fun _ fs => AllReadable fs ↔ AllNamed fs) ?_ ?_ ?_ ?_ ?_ ?_ ?_ ?_ e f stands
  · intro v t number
    exact iff_true_intro (Script.isDecimal_number v t number)
  · intro n groups _ free
    have constant : Script.mangle n ∈ keywords → ¬ (Script.mangle n ∈ keywords →
        Script.mangle n ∈ constants) := fun keyword all => free (all keyword)
    simp only [Readable, Named, isIdentifier_iff]
    constructor
    · rintro ⟨word, allowed⟩
      exact ⟨word, fun keyword => constant keyword allowed⟩
    · rintro ⟨word, noKeyword⟩
      exact ⟨word, fun keyword => absurd keyword noKeyword⟩
  · intro e f operand
    exact operand
  · intro o s e f sign operand
    have front : s = .plus ∨ s = .minus := by
      unfold frontSign? at sign
      split at sign <;> simp_all
    simp only [Readable, Named, operand, front, true_and]
  · intro o s l r f g _ left right
    exact and_congr left right
  · intro n groups es fs _ _ operands
    simp only [Readable, Named, isIdentifier_iff, operands]
  · exact Iff.rfl
  · intro e f es fs first others
    exact and_congr first others

end Formula

namespace Script

-- The text of an expression is read as the formula that it stands for if and only if the formula needs no
-- brackets and its names are allowed in a program; brackets that it would need are not written, and the text is
-- read as the regrouped formula. The same holds of each side of an equation, whose text is read as their
-- difference.
theorem text_means_formula_iff_grouped (ctx : Context) :
    (∀ e f, e.formula? = some f → ∃ t, fragment ctx e = .ok (.text t) ∧
      (read? t = some f ↔ f.Grouped ∧ f.Named) ∧ (f.Named → read? t = some f.regroup)) ∧
    (∀ l r comment f g, l.formula? = some f → r.formula? = some g →
      ∃ t, equation ctx (.simple l r comment) = .ok t ∧
        (read? t = some (.binary .minus f g) ↔
          (f.Grouped ∧ g.Grouped) ∧ f.Named ∧ g.Named) ∧
        (f.Named → g.Named → read? t = some (.binary .minus f.regroup g.regroup))) := by
  constructor
  · intro e f stands
    have names := readable_iff_named e f stands
    refine ⟨f.text, fragment_of_formula ctx e f stands, ?_, ?_⟩
    · rw [← names]
      exact read_text_eq_self_iff f
    · intro named
      exact read_text f (names.2 named)
  · intro l r comment f g left right
    have namesL := readable_iff_named l f left
    have namesR := readable_iff_named r g right
    refine ⟨differenceText f g, equation_of_formulas ctx l r comment f g left right, ?_, ?_⟩
    · rw [← namesL, ← namesR]
      exact read_differenceText_eq_self_iff f g
    · intro namedL namedR
      exact read_differenceText f g (namesL.2 namedL) (namesR.2 namedR)

def Context.still : Context := ⟨fun _ => .ok (), fun _ => ""⟩

theorem doubled_square_means_formula :
    let e : Expr := .apply (.named "*")
      [.integer 2, .apply (.named "^") [.ref (.simple "x"), .integer 2]]
    let f : Formula := .binary .times (.number "2") (.binary .power (.name "x") (.number "2"))
    e.formula? = some f ∧ f.Grouped ∧ f.Named ∧
      (∃ t, fragment .still e = .ok (.text t) ∧ read? t = some f) ∧
      ∃ t, equation .still (.simple e e "") = .ok t ∧ read? t = some (.binary .minus f f) := by
  intro e f
  have two : (Literal.integer 2).number? = some "2" := by decide
  have x : mangle "x" = "x" := by decide
  have stands : e.formula? = some f := by
    simp [e, f, Expr.formula?, Expr.integer, ComponentRef.simple, two, x, betweenSign?, constants]
  have grouped : f.Grouped := by
    simp [f, Grouped, leftLevel, rightLevel, level, FormulaSign.level]
  have named : f.Named := ⟨trivial, (by decide : isIdentifier "x" = true), trivial⟩
  obtain ⟨alone, sides⟩ := text_means_formula_iff_grouped .still
  obtain ⟨t, written, read, _⟩ := alone e f stands
  obtain ⟨u, equated, difference, _⟩ := sides e e "" f f stands stands
  exact ⟨stands, grouped, named, ⟨t, written, read.2 ⟨grouped, named⟩⟩,
    u, equated, difference.2 ⟨⟨grouped, grouped⟩, named, named⟩⟩

-- `2 * (x + 1)` is written without its brackets and read as `(2 * x) + 1`.
theorem doubled_sum_misread :
    let e : Expr := .apply (.named "*")
      [.integer 2, .apply (.named "+") [.ref (.simple "x"), .integer 1]]
    e.formula? = some (.binary .times (.number "2") (.binary .plus (.name "x") (.number "1"))) ∧
      fragment .still e = .ok (.text "2 * x + 1") ∧
      read? "2 * x + 1" =
        some (.binary .plus (.binary .times (.number "2") (.name "x")) (.number "1")) := by
  intro e
  have two : (Literal.integer 2).number? = some "2" := by decide
  have one : (Literal.integer 1).number? = some "1" := by decide
  have x : mangle "x" = "x" := by decide
  have stands : e.formula? =
      some (.binary .times (.number "2") (.binary .plus (.name "x") (.number "1"))) := by
    simp [e, Expr.formula?, Expr.integer, ComponentRef.simple, two, one, x, betweenSign?, constants]
  have lexed : tokens "2 * x + 1" =
      some [.number "2", .sign .times, .name "x", .sign .plus, .number "1"] := by
    decide
  refine ⟨stands, ?_, ?_⟩
  · simpa [text, signText] using fragment_of_formula .still e _ stands
  · simp [read?, lexed, sum, product, factor, primary, productRest, sumRest, diffs, keywords]

end Script

end Modelica
