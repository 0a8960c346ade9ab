import Modelica.Expr.Qualify
import Modelica.Flow

set_option autoImplicit false

namespace Modelica

def Expr.literal? : Expr → Option Literal
  | .literal l => some l
  | _ => none

def literals (groups : List (Option (List Expr))) : List Literal :=
  ((groups.filterMap id).flatten.filterMap Expr.literal?).map Literal.canonical

def allLiteral (groups : List (Option (List Expr))) : Bool :=
  (groups.filterMap id).flatten.all fun e => e.literal?.isSome

theorem Expr.qualifyAll_of_literal (s : Surroundings) (es : List Expr)
    (literal : es.all (fun e => e.literal?.isSome) = true) : Expr.qualifyAll s es = es := by
  induction es with
  | nil => rfl
  | cons e es ih =>
    rw [List.all_cons, Bool.and_eq_true] at literal
    have first : e.qualify s = e := by
      cases e with
      | literal l => rfl
      | _ => simp [Expr.literal?] at literal
    rw [Expr.qualifyAll, first, ih literal.2]

theorem Expr.qualifyGroups_of_allLiteral (s : Surroundings) (groups : List (Option (List Expr)))
    (literal : allLiteral groups = true) : Expr.qualifyGroups s groups = groups := by
  induction groups with
  | nil => rfl
  | cons group groups ih =>
    cases group with
    | none => rw [Expr.qualifyGroups, ih literal]
    | some es =>
      obtain ⟨first, others⟩ : es.all (fun e => e.literal?.isSome) = true ∧ allLiteral groups = true := by
        unfold allLiteral at *
        rw [← Bool.and_eq_true, ← literal, ← List.all_append]
        rfl
      rw [Expr.qualifyGroups, Expr.qualifyAll_of_literal s es first, ih others]

theorem ComponentRef.qualify_eq_self (s : Surroundings) (r : ComponentRef) (top : s.before = "")
    (fixed : r.child = none ∧ allLiteral r.subscripts = true ∨ s.known r.text = false) : r.qualify s = r := by
  obtain ⟨name, groups, child⟩ := r
  unfold ComponentRef.qualify
  simp only [top, String.empty_append]
  obtain ⟨single, literal⟩ | unknown := fixed
  · obtain rfl : child = none := single
    split
    · rw [Expr.qualifyGroups_of_allLiteral s groups literal, ComponentRef.qualifyRest, List.append_nil]
      rfl
    · rfl
  · rw [unknown]
    rfl

end Modelica
