import Mathlib.Algebra.BigOperators.Group.Finset.Basic
import Modelica.Library.Connect
import Modelica.Proofs.Flow.Groups

set_option autoImplicit false

namespace Modelica

open Build

abbrev Valuation (G : Type) := String → List Literal → G

section Values

variable {G : Type} [AddCommGroup G] (nameOf : SymbolId → String) (v : Valuation G)

-- The value of an expression of the kind that connections are made into: sums, signs and the number zero over
-- references with literal subscripts.
def Expr.value? : Expr → Option G
  | .literal (.integer n) => if n = 0 then some 0 else none
  | .ref (.mk name groups none) =>
    match literalSubscripts (.mk name groups none) with
    | .ok subscripts => some (v name subscripts)
    | .error _ => none
  | .component s => some (v (nameOf s) [])
  | .apply (.named "-") [e] => (e.value?).map (- ·)
  | .apply (.named "+") [l, r] => do
    let l ← l.value?
    let r ← r.value?
    return l + r
  | _ => none

def Equation.Holds : Equation → Prop
  | .simple l r _ => ∃ a, l.value? nameOf v = some a ∧ r.value? nameOf v = some a
  | _ => False

theorem value?_zero : (Expr.integer 0).value? nameOf v = some 0 := by
  simp [Expr.integer, Expr.value?]

theorem holds_simple_iff (l r : Expr) (comment : String) (a b : G)
    (left : l.value? nameOf v = some a) (right : r.value? nameOf v = some b) :
    (Equation.simple l r comment).Holds nameOf v ↔ a = b := by
  simp only [Equation.Holds, left, right, Option.some_inj]
  constructor
  · rintro ⟨c, rfl, rfl⟩
    rfl
  · rintro rfl
    exact ⟨a, rfl, rfl⟩

theorem value?_sum (es : List Expr) (as : List G)
    (values : List.Forall₂ (fun (e : Expr) a => e.value? nameOf v = some a) es as) :
    (Expr.sum es).value? nameOf v = some as.sum := by
  induction values with
  | nil => exact value?_zero nameOf v
  | @cons e a es as first others ih =>
    cases others with
    | nil => simpa [Expr.sum] using first
    | cons second others =>
      rw [Expr.sum] <;> simp_all [Expr.value?]

def FlowVariable.Fits (x : FlowVariable) (r : ComponentRef) : Prop :=
  r.child = none ∧ r.name = x.name ∧ literalSubscripts r = .ok x.subscripts

def FlowVariable.net (x : FlowVariable) : G :=
  if x.inner then v x.name x.subscripts else - v x.name x.subscripts

theorem value?_of_fits (x : FlowVariable) (r : ComponentRef) (fits : x.Fits r) :
    (Expr.ref r).value? nameOf v = some (v x.name x.subscripts) := by
  obtain ⟨name, groups, child⟩ := r
  obtain ⟨rfl, rfl, literal⟩ := fits
  simp only [Expr.value?, literal]

def FlowGroup.balance (g : FlowGroup) : Equation :=
  .simple (Expr.sum g.terms) (.integer 0) ""

theorem FlowGroup.balance_holds_iff (g : FlowGroup) (fits : ∀ e ∈ g.entries, e.1.Fits e.2) :
    g.balance.Holds nameOf v ↔ (g.keys.map fun x => x.net v).sum = 0 := by
  unfold FlowGroup.balance FlowGroup.terms
  split
  · next outside =>
    -- the terms are written without signs, so the sum is the negative of the balance
    have values : List.Forall₂ (fun (e : Expr) a => e.value? nameOf v = some a) (g.values.map Expr.ref)
        (g.keys.map fun x => - x.net v) := by
      rw [OrderedMap.values, OrderedMap.keys, List.map_map, List.map_map, List.forall₂_map_left_iff,
        List.forall₂_map_right_iff, List.forall₂_same]
      intro e member
      have outer : e.1.inner = false := by
        simpa using List.all_eq_true.1 outside e.1 (List.mem_map_of_mem member)
      simp [value?_of_fits nameOf v e.1 e.2 (fits e member), FlowVariable.net, outer]
    have negated : (g.keys.map fun x => - x.net v).sum = - (g.keys.map fun x => x.net v).sum := by
      rw [List.sum_neg, List.map_map]
      rfl
    rw [holds_simple_iff nameOf v _ _ _ _ _ (value?_sum nameOf v _ _ values)
      (value?_zero nameOf v), negated, neg_eq_zero]
  · have values : List.Forall₂ (fun (e : Expr) a => e.value? nameOf v = some a) (g.entries.map fun e =>
          if e.1.inner then Expr.ref e.2 else Expr.apply (.named "-") [.ref e.2])
        (g.keys.map fun x => x.net v) := by
      rw [OrderedMap.keys, List.map_map, List.forall₂_map_left_iff, List.forall₂_map_right_iff, List.forall₂_same]
      intro e member
      have value := value?_of_fits nameOf v e.1 e.2 (fits e member)
      by_cases inner : e.1.inner
      · simp [inner, FlowVariable.net, value]
      · simp [inner, FlowVariable.net, Expr.value?, value]
    rw [holds_simple_iff nameOf v _ _ _ _ _ (value?_sum nameOf v _ _ values) (value?_zero nameOf v)]

end Values

section Components

open Classical in
noncomputable def component (edges : List FlowEdge) (x : FlowVariable) : Finset FlowVariable :=
  (edges.flatMap fun e => [e.1, e.2]).toFinset.filter (Linked edges x)

theorem mem_component (edges : List FlowEdge) (x : FlowVariable) (met : IsEnd edges x)
    (y : FlowVariable) : y ∈ component edges x ↔ Linked edges x y := by
  have isEnd : y ∈ (edges.flatMap fun e => [e.1, e.2]) ↔ IsEnd edges y := by
    simp [IsEnd]
  simp only [component, Finset.mem_filter, List.mem_toFinset, isEnd]
  constructor
  · exact And.right
  · exact fun linked => ⟨linked.isEnd met, linked⟩

theorem component_congr (edges : List FlowEdge) (x y : FlowVariable) (met : IsEnd edges x)
    (linked : Linked edges x y) : component edges x = component edges y := by
  ext z
  rw [mem_component edges x met, mem_component edges y (linked.isEnd met)]
  exact ⟨linked.symm.trans, linked.trans⟩

variable {G : Type} [AddCommGroup G] (nameOf : SymbolId → String) (v : Valuation G)

variable {groups : FlowGroups} {edges : List FlowEdge}

theorem sum_keys_eq_component (correct : groups.Correct FlowVariable.Fits edges)
    (x : FlowVariable) (g : FlowGroup) (found : groups.find? x = some g) :
    (g.keys.map fun y => y.net v).sum = ∑ y ∈ component edges x, y.net v := by
  have met : IsEnd edges x := (correct.ends x).1 ((groups.find?_isSome_iff x).1 (by simp [found]))
  have same : g.keys.toFinset = component edges x := by
    ext y
    rw [List.mem_toFinset, correct.members x g found, mem_component edges x met]
  rw [← same, List.sum_toFinset _ (correct.once x g found)]

theorem balances_hold_iff (correct : groups.Correct FlowVariable.Fits edges) :
    (∀ g ∈ groups.distinct, g.balance.Holds nameOf v) ↔ ∀ x, IsEnd edges x → ∑ y ∈ component edges x, y.net v = 0 := by
  obtain ⟨apart, covered⟩ := FlowGroups.distinct_correct correct
  have balance : ∀ u g, groups.find? u = some g →
      (g.balance.Holds nameOf v ↔ ∑ y ∈ component edges u, y.net v = 0) := by
    intro u g found
    rw [FlowGroup.balance_holds_iff nameOf v g (correct.refs u g found), sum_keys_eq_component v correct u g found]
  constructor
  · intro balanced x met
    obtain ⟨g, member, inside⟩ := covered x ((correct.ends x).2 met)
    obtain ⟨u, found⟩ := apart.known g member
    have linked := (correct.members u g found x).1 inside
    rw [component_congr edges x u met linked.symm]
    exact (balance u g found).1 (balanced g member)
  · intro balanced g member
    obtain ⟨u, found⟩ := apart.known g member
    have met : IsEnd edges u := (correct.ends u).1 ((groups.find?_isSome_iff u).1 (by simp [found]))
    exact (balance u g found).2 (balanced u met)

end Components

end Modelica
