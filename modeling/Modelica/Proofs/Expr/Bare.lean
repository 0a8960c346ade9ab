import Modelica.Library.Reach

set_option autoImplicit false

namespace Modelica

mutual

def Expr.bare : Expr → Bool
  | .literal _ => true
  | .ref r => r.bare
  | .apply o es => o.bare && Expr.allBare es
  | .conditional cs es => Expr.allBare cs && Expr.allBare es
  | .array es => Expr.allBare es
  | .slice a b c => a.bare && b.bare && c.bare
  | .tuple es => Expr.allBare es
  | .component _ => false
  | .modification _ => false

def Expr.allBare : List Expr → Bool
  | [] => true
  | e :: es => e.bare && Expr.allBare es

def ComponentRef.bare : ComponentRef → Bool
  | .mk _ groups none => Expr.groupsBare groups
  | .mk _ groups (some c) => Expr.groupsBare groups && c.bare

def Expr.groupsBare : List (Option (List Expr)) → Bool
  | [] => true
  | none :: rest => Expr.groupsBare rest
  | some es :: rest => Expr.allBare es && Expr.groupsBare rest

def Operator.bare : Operator → Bool
  | .named _ => true
  | .function r => r.bare

end

mutual

theorem Expr.entries_of_bare (e : Expr) (bare : e.bare = true) : e.parts.filterMap Part.entry? = [] := by
  match e with
  | .literal _ | .ref _ => rfl
  | .apply o es =>
    rw [Expr.bare, Bool.and_eq_true] at bare
    have none : o.parts.filterMap Part.entry? = [] := by cases o <;> rfl
    rw [Expr.parts, List.filterMap_append, none, Expr.entries_of_allBare es bare.2, List.append_nil]
  | .conditional cs es =>
    rw [Expr.bare, Bool.and_eq_true] at bare
    rw [Expr.parts, List.filterMap_append, Expr.entries_of_allBare cs bare.1, Expr.entries_of_allBare es bare.2,
      List.append_nil]
  | .array es | .tuple es => exact Expr.entries_of_allBare es bare
  | .slice a b c =>
    simp only [Expr.bare, Bool.and_eq_true] at bare
    simp only [Expr.parts, List.filterMap_append, a.entries_of_bare bare.1.1, b.entries_of_bare bare.1.2,
      c.entries_of_bare bare.2, List.append_nil]

theorem Expr.entries_of_allBare (es : List Expr) (bare : Expr.allBare es = true) :
    (Expr.allParts es).filterMap Part.entry? = [] := by
  match es with
  | [] => rfl
  | e :: es =>
    rw [Expr.allBare, Bool.and_eq_true] at bare
    rw [Expr.allParts, List.filterMap_append, e.entries_of_bare bare.1, Expr.entries_of_allBare es bare.2, List.append_nil]

end

theorem ComponentRef.names_eq_cons (r : ComponentRef) : ∃ rest, r.names = r.name :: rest := by
  obtain ⟨name, groups, _ | child⟩ := r
  · exact ⟨[], rfl⟩
  · exact ⟨child.names, by rw [ComponentRef.names]; rfl⟩

def Symbol.exprs (s : Symbol) : List Expr :=
  s.dimensions.flatten ++
    [s.start, s.min, s.max, s.nominal, s.value, s.fixed, s.unit, s.free, s.initialGuess]

end Modelica
