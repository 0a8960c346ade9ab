import Modelica.Proofs.Formula.Lexing

set_option autoImplicit false

namespace Modelica

-- Signs between two operands, from those that bind least on.
def FormulaSign.level : FormulaSign → Nat
  | .plus | .minus => 1
  | .times | .over => 2
  | .power => 4

namespace Formula

-- A sign in front stands between products and powers; everything without a sign outside brackets comes last.
def level : Formula → Nat
  | .binary s _ _ => s.level
  | .signed _ _ => 3
  | _ => 5

def leftLevel : FormulaSign → Nat
  | .power => 5
  | s => s.level

def rightLevel : FormulaSign → Nat
  | .power => 3
  | s => s.level + 1

mutual

def Grouped : Formula → Prop
  | .number _ => True
  | .name _ => True
  | .signed _ e => 3 ≤ e.level ∧ e.Grouped
  | .binary s l r => leftLevel s ≤ l.level ∧ rightLevel s ≤ r.level ∧ l.Grouped ∧ r.Grouped
  | .call _ es => AllGrouped es
  | .diff e => e.Grouped

def AllGrouped : List Formula → Prop
  | [] => True
  | e :: es => e.Grouped ∧ AllGrouped es

end

mutual

def Readable : Formula → Prop
  | .number t => IsDecimal t.toList
  | .name s => IsWord s ∧ (s ∈ keywords → s ∈ constants)
  | .signed s e => (s = .plus ∨ s = .minus) ∧ e.Readable
  | .binary _ l r => l.Readable ∧ r.Readable
  | .call f es => (IsWord f ∧ f ∉ keywords) ∧ AllReadable es
  | .diff e => e.Readable

def AllReadable : List Formula → Prop
  | [] => True
  | e :: es => e.Readable ∧ AllReadable es

end

def diffTokens : List Token :=
  [.point, .name "diff", .opening, .name "self", .point, .name "t", .closing]

mutual

def toTokens : Formula → List Token
  | .number t => [.number t]
  | .name s => [.name s]
  | .signed s e => .sign s :: e.toTokens
  | .binary s l r => l.toTokens ++ .sign s :: r.toTokens
  | .call f es => .name f :: .opening :: argumentTokens es
  | .diff e => .opening :: (e.toTokens ++ .closing :: diffTokens)

def argumentTokens : List Formula → List Token
  | [] => [.closing]
  | e :: es => e.toTokens ++ furtherTokens es

def furtherTokens : List Formula → List Token
  | [] => [.closing]
  | e :: es => .comma :: (e.toTokens ++ furtherTokens es)

end

def signFirst (s : FormulaSign) : Formula → Formula
  | .binary .power l r => .signed s (.binary .power l r)
  | .binary q l r => .binary q (signFirst s l) r
  | e => .signed s e

def outermost (s : FormulaSign) (l : Formula) (q : FormulaSign) : Bool :=
  decide (q.level < rightLevel s) && decide (q.level ≤ l.level)

mutual

def join (s : FormulaSign) (l r : Formula) : Formula :=
  match r with
  | .binary q c d =>
    if outermost s l q then .binary q (join s l c) d else graft s l (.binary q c d)
  | r => graft s l r
termination_by (sizeOf l + sizeOf r, 1)

def graft (s : FormulaSign) (l r : Formula) : Formula :=
  match l with
  | .binary p a b =>
    if p.level < leftLevel s then .binary p a (join s b r) else .binary s (.binary p a b) r
  | .signed t a => if 3 < leftLevel s then .signed t (join s a r) else .binary s (.signed t a) r
  | l => .binary s l r
termination_by (sizeOf l + sizeOf r, 0)

end

theorem right_level_of_left (s : FormulaSign) (m n : Nat) (left : leftLevel s ≤ m)
    (right : rightLevel s ≤ n ∨ m < n) : rightLevel s ≤ n := by
  cases s <;> simp only [leftLevel, rightLevel, FormulaSign.level] at * <;> omega

theorem levels_of_weaker (s p : FormulaSign) (n : Nat) (weaker : p.level < leftLevel s)
    (right : rightLevel s ≤ n ∨ p.level < n) : rightLevel p ≤ s.level ∧ rightLevel p ≤ n := by
  cases s <;> cases p <;> simp only [leftLevel, rightLevel, FormulaSign.level] at * <;> omega

theorem levels_of_outermost (s q : FormulaSign) (l : Formula) (out : outermost s l q = true) :
    leftLevel q ≤ s.level ∧ leftLevel q ≤ l.level := by
  simp only [outermost, Bool.and_eq_true, decide_eq_true_eq] at out
  cases s <;> cases q <;> simp only [leftLevel, rightLevel, FormulaSign.level] at * <;> omega

def Inside (s : FormulaSign) (l r : Formula) : Prop :=
  ∀ q c d, r = .binary q c d → outermost s l q = false

theorem join_of_inside (s : FormulaSign) (l r : Formula) (inside : Inside s l r) : join s l r = graft s l r := by
  cases r with
  | binary q c d => simp [join, inside q c d rfl]
  | _ => simp [join]

theorem right_level_of_inside (s : FormulaSign) (l r : Formula) (inside : Inside s l r) :
    rightLevel s ≤ r.level ∨ l.level < r.level := by
  cases r with
  | binary q c d =>
    have hidden := inside q c d rfl
    simp only [outermost, Bool.and_eq_false_iff, decide_eq_false_iff_not] at hidden
    have same : (binary q c d).level = q.level := rfl
    omega
  | _ => cases s <;> simp [level, rightLevel, FormulaSign.level]

theorem join_cases (s : FormulaSign) (motive : Formula → Formula → Formula → Prop)
    (outer : ∀ l q c d, leftLevel q ≤ s.level → leftLevel q ≤ l.level → motive l c (join s l c) →
      motive l (.binary q c d) (.binary q (join s l c) d))
    (inner : ∀ p a b r, rightLevel p ≤ s.level → rightLevel p ≤ r.level →
      motive b r (join s b r) → motive (.binary p a b) r (.binary p a (join s b r)))
    (under : ∀ t a r, 3 ≤ s.level → 3 ≤ r.level → motive a r (join s a r) →
      motive (.signed t a) r (.signed t (join s a r)))
    (here : ∀ l r, leftLevel s ≤ l.level → rightLevel s ≤ r.level → motive l r (.binary s l r))
    (l r : Formula) : motive l r (join s l r) := by
  by_cases inside : Inside s l r
  · have right := right_level_of_inside s l r inside
    rw [join_of_inside s l r inside]
    cases l with
    | binary p a b =>
      by_cases weaker : p.level < leftLevel s
      · have ⟨sign, behind⟩ := levels_of_weaker s p r.level weaker right
        rw [graft, if_pos weaker]
        exact inner p a b r sign behind (join_cases s motive outer inner under here b r)
      · have left : leftLevel s ≤ (binary p a b).level := Nat.le_of_not_lt weaker
        rw [graft, if_neg weaker]
        exact here _ r left (right_level_of_left s _ _ left right)
    | signed t a =>
      by_cases weaker : 3 < leftLevel s
      · have power : s = .power := by
          cases s <;> simp_all [leftLevel, FormulaSign.level]
        subst power
        have behind : 3 ≤ r.level := by
          have same : (signed t a).level = 3 := rfl
          simp only [rightLevel, same] at right
          omega
        rw [graft, if_pos weaker]
        exact under t a r (by decide) behind (join_cases _ motive outer inner under here a r)
      · have left : leftLevel s ≤ (signed t a).level := Nat.le_of_not_lt weaker
        rw [graft, if_neg weaker]
        exact here _ r left (right_level_of_left s _ _ left right)
    | _ =>
      have left : leftLevel s ≤ 5 := by cases s <;> decide
      rw [graft]
      · exact here _ r left (right_level_of_left s _ _ left right)
      · simp
      · simp
  · simp only [Inside, Classical.not_forall] at inside
    obtain ⟨q, c, d, rfl, out⟩ := inside
    simp only [Bool.not_eq_false] at out
    have ⟨sign, before⟩ := levels_of_outermost s q l out
    rw [join, if_pos out]
    exact outer l q c d sign before (join_cases s motive outer inner under here l c)
termination_by sizeOf l + sizeOf r

section

variable (s : FormulaSign)
include s

theorem le_level_join (l r : Formula) (n : Nat) (sign : n ≤ s.level) (left : n ≤ l.level)
    (right : n ≤ r.level) : n ≤ (join s l r).level := by
  revert left right
  refine join_cases s (fun l r e => n ≤ l.level → n ≤ r.level → n ≤ e.level) ?_ ?_ ?_ ?_ l r
  · intro l q c d _ _ _ _ right
    exact right
  · intro p a b r _ _ _ left _
    exact left
  · intro t a r _ _ _ left _
    exact left
  · intro l r _ _ _ _
    exact sign

theorem join_spec (l r : Formula) : (join s l r).toTokens = l.toTokens ++ .sign s :: r.toTokens ∧
    (l.Grouped → r.Grouped → (join s l r).Grouped) ∧ (l.Readable → r.Readable → (join s l r).Readable) := by
  refine join_cases s (fun l r e => e.toTokens = l.toTokens ++ .sign s :: r.toTokens ∧
    (l.Grouped → r.Grouped → e.Grouped) ∧ (l.Readable → r.Readable → e.Readable)) ?_ ?_ ?_ ?_ l r
  · intro l q c d sign before ⟨tokens, grouped, readable⟩
    refine ⟨by simp [toTokens, tokens], fun left ⟨first, second, groupedC, groupedD⟩ => ?_, fun left right => ?_⟩
    · exact ⟨le_level_join s l c _ sign before first, second, grouped left groupedC, groupedD⟩
    · exact ⟨readable left right.1, right.2⟩
  · intro p a b r sign behind ⟨tokens, grouped, readable⟩
    refine ⟨by simp [toTokens, tokens], fun ⟨first, second, groupedA, groupedB⟩ right => ?_, fun left right => ?_⟩
    · exact ⟨first, le_level_join s b r _ sign second behind, groupedA, grouped groupedB right⟩
    · exact ⟨left.1, readable left.2 right⟩
  · intro t a r sign behind ⟨tokens, grouped, readable⟩
    refine ⟨by simp [toTokens, tokens], fun ⟨operand, groupedA⟩ right => ?_, fun left right => ?_⟩
    · exact ⟨le_level_join s a r _ sign operand behind, grouped groupedA right⟩
    · exact ⟨left.1, readable left.2 right⟩
  · intro l r before behind
    exact ⟨by simp [toTokens], fun left right => ⟨before, behind, left, right⟩, fun left right => ⟨left, right⟩⟩

theorem signFirst_cases (motive : Formula → Formula → Prop) (front : ∀ e, 3 ≤ e.level → motive e (.signed s e))
    (onward : ∀ q l r, leftLevel q ≤ 3 → motive l (signFirst s l) →
      motive (.binary q l r) (.binary q (signFirst s l) r)) (e : Formula) :
    motive e (signFirst s e) := by
  induction e using signFirst.induct with
  | case1 l r => exact front _ (by simp [level, FormulaSign.level])
  | case2 q l r other ih =>
    rw [signFirst]
    · refine onward q l r ?_ ih
      cases q <;> simp_all [leftLevel, FormulaSign.level]
    · exact other
  | case3 e noPower noBinary =>
    have level : 3 ≤ e.level := by
      cases e with
      | binary q l r => exact absurd rfl (noBinary q l r)
      | _ => simp [level]
    rw [signFirst]
    · exact front e level
    · exact noPower
    · exact noBinary

theorem le_level_signFirst (e : Formula) (n : Nat) (sign : n ≤ 3) (operand : n ≤ e.level) :
    n ≤ (signFirst s e).level := by
  revert operand
  refine signFirst_cases s (fun e f => n ≤ e.level → n ≤ f.level) ?_ ?_ e
  · intro e _ _
    exact sign
  · intro q l r _ _ operand
    exact operand

theorem signFirst_spec (e : Formula) : (signFirst s e).toTokens = .sign s :: e.toTokens ∧
    (e.Grouped → (signFirst s e).Grouped) ∧ (s = .plus ∨ s = .minus → e.Readable → (signFirst s e).Readable) := by
  refine signFirst_cases s (fun e f => f.toTokens = .sign s :: e.toTokens ∧ (e.Grouped → f.Grouped) ∧
    (s = .plus ∨ s = .minus → e.Readable → f.Readable)) ?_ ?_ e
  · intro e level
    exact ⟨rfl, fun operand => ⟨level, operand⟩, fun sign operand => ⟨sign, operand⟩⟩
  · intro q l r weak ⟨tokens, grouped, readable⟩
    refine ⟨by simp [toTokens, tokens], fun ⟨first, second, groupedL, groupedR⟩ => ?_, fun sign operand => ?_⟩
    · exact ⟨le_level_signFirst s l _ weak first, second, grouped groupedL, groupedR⟩
    · exact ⟨readable sign operand.1, operand.2⟩

end

mutual

def regroup : Formula → Formula
  | .number t => .number t
  | .name s => .name s
  | .signed s e => signFirst s e.regroup
  | .binary s l r => join s l.regroup r.regroup
  | .call f es => .call f (regroupAll es)
  | .diff e => .diff e.regroup

def regroupAll : List Formula → List Formula
  | [] => []
  | e :: es => e.regroup :: regroupAll es

end

mutual

theorem regroup_spec (e : Formula) :
    e.regroup.toTokens = e.toTokens ∧ e.regroup.Grouped ∧ (e.Readable → e.regroup.Readable) := by
  cases e with
  | number t | name s => exact ⟨rfl, trivial, id⟩
  | signed s e =>
    obtain ⟨tokens, grouped, readable⟩ := regroup_spec e
    obtain ⟨first, second, third⟩ := signFirst_spec s e.regroup
    exact ⟨by simp [regroup, toTokens, first, tokens], second grouped, fun is => third is.1 (readable is.2)⟩
  | binary s l r =>
    obtain ⟨tokensL, groupedL, readableL⟩ := regroup_spec l
    obtain ⟨tokensR, groupedR, readableR⟩ := regroup_spec r
    obtain ⟨first, second, third⟩ := join_spec s l.regroup r.regroup
    exact ⟨by simp [regroup, toTokens, first, tokensL, tokensR], second groupedL groupedR, fun is =>
      third (readableL is.1) (readableR is.2)⟩
  | call f es =>
    obtain ⟨tokens, -, grouped, readable⟩ := regroupAll_spec es
    exact ⟨by simp [regroup, toTokens, tokens], grouped, fun is => ⟨is.1, readable is.2⟩⟩
  | diff e =>
    obtain ⟨tokens, grouped, readable⟩ := regroup_spec e
    exact ⟨by simp [regroup, toTokens, tokens], grouped, readable⟩

theorem regroupAll_spec (es : List Formula) : argumentTokens (regroupAll es) = argumentTokens es ∧
    furtherTokens (regroupAll es) = furtherTokens es ∧ AllGrouped (regroupAll es) ∧
      (AllReadable es → AllReadable (regroupAll es)) := by
  cases es with
  | nil => exact ⟨rfl, rfl, trivial, id⟩
  | cons e es =>
    obtain ⟨tokens, grouped, readable⟩ := regroup_spec e
    obtain ⟨-, further, all, others⟩ := regroupAll_spec es
    exact ⟨by simp [regroupAll, argumentTokens, tokens, further], by simp [regroupAll, furtherTokens, tokens, further],
      ⟨grouped, all⟩, fun is => ⟨readable is.1, others is.2⟩⟩

end

@[simp] theorem toTokens_regroup (e : Formula) : e.regroup.toTokens = e.toTokens := (regroup_spec e).1

theorem grouped_regroup (e : Formula) : e.regroup.Grouped := (regroup_spec e).2.1

theorem readable_regroup (e : Formula) (readable : e.Readable) : e.regroup.Readable := (regroup_spec e).2.2 readable

end Formula

end Modelica
