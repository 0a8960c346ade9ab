import Modelica.Library.Constants
import Modelica.Proofs.Expr.Bare
import Modelica.Proofs.Library.Later
import Modelica.Proofs.OrderedMap

set_option autoImplicit false

namespace Modelica

namespace Library

theorem inside_of_mem_foldl (inside : Entry → Prop) (f : List Entry → Entry → List Entry)
    (step : ∀ found e, (∀ x ∈ found, inside x) → inside e → ∀ x ∈ f found e, inside x)
    (es : List Entry) (all : ∀ e ∈ es, inside e) (found : List Entry)
    (before : ∀ x ∈ found, inside x) : ∀ x ∈ es.foldl f found, inside x := by
  induction es generalizing found with
  | nil => exact before
  | cons e es ih =>
    exact ih (fun x member => all x (List.mem_cons_of_mem _ member)) _ (step found e before (all e List.mem_cons_self))

section Closed

variable (children : Entry → List Entry) (inside : Entry → Prop)
  (closed : ∀ e, inside e → ∀ child ∈ children e, inside child)

include closed

theorem inside_of_mem_visit (fuel : Nat) (found : List Entry) (e : Entry)
    (before : ∀ x ∈ found, inside x) (start : inside e) : ∀ x ∈ visit children fuel found e, inside x := by
  induction fuel generalizing found e with
  | zero => exact before
  | succ fuel ih =>
    unfold visit
    split
    · exact before
    · intro x member
      obtain rfl | later := List.mem_cons.1 member
      · exact start
      · exact inside_of_mem_foldl inside _ ih _ (closed e start) found before x later

theorem inside_of_mem_reachFrom (lib : Library) (starts : List Entry)
    (start : ∀ e ∈ starts, inside e) : ∀ e ∈ lib.reachFrom children starts, inside e := by
  intro e member
  exact inside_of_mem_foldl inside _ (inside_of_mem_visit children inside closed _) starts start []
    (by simp) e (List.mem_reverse.1 member)

end Closed

end Library

namespace Build

open Library OrderedMap

variable {lib : Library} {owner : ClassId} {bad : Error → Library → Prop}

theorem ensures_foldlM_same {β γ : Type} (xs : List γ) (f : β → γ → Build β) (b : β)
    (each : ∀ x ∈ xs, (f b x).Ensures lib (fun c next => c = b ∧ next = lib) bad) :
    (xs.foldlM f b).Ensures lib (fun c next => c = b ∧ next = lib) bad := by
  induction xs with
  | nil => exact .pure ⟨rfl, rfl⟩
  | cons x xs ih =>
    rw [List.foldlM_cons]
    refine (each x List.mem_cons_self).bind ?_
    rintro _ _ ⟨rfl, rfl⟩
    exact ih fun y member => each y (List.mem_cons_of_mem _ member)

-- No class is found for the types of the components, so no path goes through a component.
theorem constantsIn_step (typed : ∀ s ∈ (lib.classOf owner).symbols.values,
      ∃ q, (lib.symbolOf s).type = .named q ∧ lib.findClass? owner q.names = none)
    (fuel : Nat) (found : OrderedMap String SymbolId) (parts : List Part)
    (refs : ∀ r, .ref r ∈ parts → r.child = none ∨ lib.findClass? owner [r.name] = none)
    (entries : ∀ e, .entry e ∈ parts → (∀ d, e ≠ .class_ d) ∧ (constantsIn fuel owner found (lib.parts e)).Ensures lib
      (fun result next => result = found ∧ next = lib) bad) :
    (constantsIn (fuel + 1) owner found parts).Ensures lib (fun result next => result = found ∧ next = lib) bad := by
  unfold constantsIn
  refine ensures_foldlM_same parts _ found fun part member => ?_
  match part with
  | .ref (.mk name groups none) =>
    simp [constantBehind?, ComponentRef.child]
  | .ref (.mk name groups (some c)) =>
    obtain ⟨rest, names⟩ := c.names_eq_cons
    have absent : lib.findClassIn? true owner [name] = none := (refs _ member).resolve_left (Option.some_ne_none c)
    simp only [constantBehind?, ComponentRef.child, Option.isNone_some, Bool.false_eq_true, if_false, ensures_bind,
      ensures_tryCatch, ensures_map, findConstant, ComponentRef.names, names, List.length_cons, findConstantFrom,
      ensures_get, absent, ensures_pure, ensures_classOf]
    split
    · simp
    · next s has =>
      obtain ⟨q, type, unknown⟩ := typed s (mem_values_of_find? has)
      simp only [ensures_bind, ensures_symbolOf]
      split
      · simp [type, findClass, unknown]
      · simp
  | .entry (.class_ d) => exact absurd rfl ((entries _ member).1 d)
  | .entry (.symbol _) | .entry (.modification _) | .entry (.argument _) =>
    exact (ensures_bind _ _).2 (ensures_get.2 (entries _ member).2)

theorem pullConstants_still {environment : ModificationId} (role : (lib.classOf owner).role = .instance_ environment)
    (inner : (constantsIn (lib.size + 1) owner .empty (lib.parts (.class_ owner))).Ensures lib
      (fun result next => result = .empty ∧ next = lib) bad) :
    (pullConstants owner).Ensures lib (fun _ next => next = lib) bad := by
  rw [pullConstants, ensures_bind, ensures_get, ensures_bind, constantsIn]
  refine (ensures_foldlM_same _ _ _ fun p member => ?_).imp fun _ _ same => .pure same.2
  cases List.mem_singleton.1 member
  simp only [ensures_bind, ensures_classOf, role, ensures_get]
  refine inner.imp ?_
  rintro _ _ ⟨rfl, rfl⟩
  rw [ensures_updateClass, ensures_pure]
  exact ⟨rfl, Library.modifyClass_eq_self _ owner _ rfl⟩

end Build

end Modelica
