import Modelica.Proofs.Expr.Bare
import Modelica.Proofs.Expr.Mapping

set_option autoImplicit false

namespace Modelica

section Relocate

variable (before : String) (own : String → Bool)

mutual

def Expr.relocate : Expr → Expr
  | .literal v => .literal v
  | .ref r => .ref r.relocate
  | .apply o es => .apply o (Expr.relocateAll es)
  | .conditional cs es => .conditional (Expr.relocateAll cs) (Expr.relocateAll es)
  | .array es => .array (Expr.relocateAll es)
  | .slice a b c => .slice a.relocate b.relocate c.relocate
  | .tuple es => .tuple (Expr.relocateAll es)
  | .component id => .component id
  | .modification id => .modification id

def Expr.relocateAll : List Expr → List Expr
  | [] => []
  | e :: es => e.relocate :: Expr.relocateAll es

def ComponentRef.relocate : ComponentRef → ComponentRef
  | .mk name groups child =>
    if own name then
      .mk (before ++ (ComponentRef.mk name groups child).text)
        (Expr.relocateGroups groups ++ ComponentRef.relocateRest child) none
    else .mk name groups child

def ComponentRef.relocateRest : Option ComponentRef → List (Option (List Expr))
  | none => []
  | some (.mk _ groups child) => Expr.relocateGroups groups ++ ComponentRef.relocateRest child

def Expr.relocateGroups : List (Option (List Expr)) → List (Option (List Expr))
  | [] => []
  | none :: rest => none :: Expr.relocateGroups rest
  | some es :: rest => some (Expr.relocateAll es) :: Expr.relocateGroups rest

end

section Unfolding

-- derives the equations once, in front of the lemmas that rewrite with them
attribute [local simp] Expr.relocate Expr.relocateAll ComponentRef.relocate ComponentRef.relocateRest
  Expr.relocateGroups Expr.qualify Expr.qualifyAll ComponentRef.qualify ComponentRef.qualifyRest
  Expr.qualifyGroups Operator.qualify

end Unfolding

def relocating : Mapping Id :=
  ⟨fun e => pure (e.relocate before own), fun r => pure (r.relocate before own)⟩

def Equation.relocate (e : Equation) : Equation := ((relocating before own).equation e).run

def Statement.relocate (s : Statement) : Statement := ((relocating before own).statement s).run

def Constraint.relocate (c : Constraint) : Constraint := ((relocating before own).constraint c).run

end Relocate

section Sited

variable (path : List String → Prop) (own : String → Bool)

def Operator.Apart : Operator → Prop
  | .named _ => True
  | .function r => own r.name = false ∧ ∀ n ∈ r.names, '.' ∉ n.toList

mutual

-- Every reference in an expression leads along a path of components, or is a single name that is no component.
def Expr.Sited : Expr → Prop
  | .literal _ => True
  | .ref r => r.Sited
  | .apply o es => o.Apart own ∧ Expr.AllSited es
  | .conditional cs es => Expr.AllSited cs ∧ Expr.AllSited es
  | .array es => Expr.AllSited es
  | .slice a b c => a.Sited ∧ b.Sited ∧ c.Sited
  | .tuple es => Expr.AllSited es
  | .component _ => True
  | .modification _ => True

def Expr.AllSited : List Expr → Prop
  | [] => True
  | e :: es => e.Sited ∧ Expr.AllSited es

def ComponentRef.Sited : ComponentRef → Prop
  | .mk name groups child =>
    (own name = true ∧ path (ComponentRef.mk name groups child).names ∧ Expr.GroupsSited groups ∧
      ComponentRef.RestSited child) ∨
    (own name = false ∧ '.' ∉ name.toList ∧ groups = [none] ∧ child = none)

def ComponentRef.RestSited : Option ComponentRef → Prop
  | none => True
  | some (.mk _ groups child) => Expr.GroupsSited groups ∧ ComponentRef.RestSited child

def Expr.GroupsSited : List (Option (List Expr)) → Prop
  | [] => True
  | none :: rest => Expr.GroupsSited rest
  | some es :: rest => Expr.AllSited es ∧ Expr.GroupsSited rest

end

section Unfolding

attribute [local simp] Expr.Sited Expr.AllSited ComponentRef.Sited ComponentRef.RestSited
  Expr.GroupsSited

end Unfolding

end Sited

structure Surroundings.Follows (s : Surroundings) (path : List String → Prop) (own : String → Bool) :
    Prop where
  known : ∀ ns, path ns → s.known (s.before ++ Text.join "." ns) = true
  own : ∀ n ns, (∀ k ∈ n :: ns, '.' ∉ k.toList) →
    s.known (s.before ++ Text.join "." (n :: ns)) = true → own n = true

section Qualify

variable {s : Surroundings} {path : List String → Prop} {own : String → Bool} (follows : s.Follows path own)
include follows

set_option linter.unusedSectionVars false

theorem ComponentRef.qualify_of_not_own (r : ComponentRef)
    (foreign : own r.name = false) (plain : ∀ n ∈ r.names, '.' ∉ n.toList) : r.qualify s = r := by
  obtain ⟨ns, names⟩ := r.names_eq_cons
  have unknown : ¬ s.known (s.before ++ r.text) = true := by
    intro known
    rw [ComponentRef.text, names] at known
    rw [names] at plain
    rw [follows.own r.name ns plain known] at foreign
    contradiction
  obtain ⟨name, groups, child⟩ := r
  rw [ComponentRef.qualify]
  exact if_neg unknown

mutual

theorem Expr.qualify_eq_relocate (e : Expr) (sited : e.Sited path own) :
    e.qualify s = e.relocate s.before own := by
  match e with
  | .literal _ | .component _ | .modification _ => rfl
  | .ref r => exact congrArg Expr.ref (ComponentRef.qualify_eq_relocate r sited)
  | .apply o es =>
    obtain ⟨apart, operands⟩ := sited
    rw [Expr.qualify, Expr.relocate, Operator.qualify_of_apart o apart,
      Expr.qualifyAll_eq_relocateAll es operands]
  | .conditional cs es =>
    rw [Expr.qualify, Expr.relocate, Expr.qualifyAll_eq_relocateAll cs sited.1,
      Expr.qualifyAll_eq_relocateAll es sited.2]
  | .array es => exact congrArg Expr.array (Expr.qualifyAll_eq_relocateAll es sited)
  | .slice a b c =>
    rw [Expr.qualify, Expr.relocate, Expr.qualify_eq_relocate a sited.1,
      Expr.qualify_eq_relocate b sited.2.1, Expr.qualify_eq_relocate c sited.2.2]
  | .tuple es => exact congrArg Expr.tuple (Expr.qualifyAll_eq_relocateAll es sited)

theorem Expr.qualifyAll_eq_relocateAll (es : List Expr)
    (sited : Expr.AllSited path own es) : Expr.qualifyAll s es = Expr.relocateAll s.before own es := by
  match es with
  | [] => rfl
  | e :: es =>
    rw [Expr.qualifyAll, Expr.relocateAll, Expr.qualify_eq_relocate e sited.1,
      Expr.qualifyAll_eq_relocateAll es sited.2]

theorem ComponentRef.qualify_eq_relocate (r : ComponentRef)
    (sited : r.Sited path own) : r.qualify s = r.relocate s.before own := by
  match r with
  | .mk name groups child =>
    rw [ComponentRef.Sited] at sited
    obtain ⟨first, leads, subscripts, rest⟩ | ⟨foreign, plain, rfl, rfl⟩ := sited
    · rw [ComponentRef.qualify, ComponentRef.relocate, if_pos first]
      simp only [ComponentRef.text, follows.known _ leads, if_true]
      rw [Expr.qualifyGroups_eq_relocateGroups groups subscripts,
        ComponentRef.qualifyRest_eq_relocateRest child rest]
    · rw [ComponentRef.relocate, foreign]
      exact ComponentRef.qualify_of_not_own follows _ foreign (by simpa [ComponentRef.names] using plain)

theorem ComponentRef.qualifyRest_eq_relocateRest (child : Option ComponentRef)
    (sited : ComponentRef.RestSited path own child) :
    ComponentRef.qualifyRest s child = ComponentRef.relocateRest s.before own child := by
  match child with
  | none => rfl
  | some (.mk _ groups child) =>
    rw [ComponentRef.RestSited] at sited
    rw [ComponentRef.qualifyRest, ComponentRef.relocateRest,
      Expr.qualifyGroups_eq_relocateGroups groups sited.1,
      ComponentRef.qualifyRest_eq_relocateRest child sited.2]

theorem Expr.qualifyGroups_eq_relocateGroups (groups : List (Option (List Expr)))
    (sited : Expr.GroupsSited path own groups) :
    Expr.qualifyGroups s groups = Expr.relocateGroups s.before own groups := by
  match groups with
  | [] => rfl
  | none :: rest =>
    exact congrArg (List.cons none) (Expr.qualifyGroups_eq_relocateGroups rest sited)
  | some es :: rest =>
    rw [Expr.qualifyGroups, Expr.relocateGroups, Expr.qualifyAll_eq_relocateAll es sited.1,
      Expr.qualifyGroups_eq_relocateGroups rest sited.2]

theorem Operator.qualify_of_apart (o : Operator) (apart : o.Apart own) :
    o.qualify s = o := by
  match o with
  | .named _ => rfl
  | .function r =>
    exact congrArg Operator.function (ComponentRef.qualify_of_not_own follows r apart.1 apart.2)

end

theorem Surroundings.mapping_agree :
    s.mapping.Agree (relocating s.before own) (fun _ x => x) (Expr.Sited path own) where
  pure _ := rfl
  bind _ _ := rfl
  expr e sited := congrArg pure (e.qualify_eq_relocate follows sited)
  ref r sited := congrArg pure (r.qualify_eq_relocate follows sited)

end Qualify

end Modelica
