import Modelica.Expr.Qualify
import Modelica.Proofs.Expr.Bare
import Modelica.Proofs.Expr.Over

set_option autoImplicit false

namespace Modelica

open Bool (and_eq_true)

mutual

def Expr.callsOnly (ok : ComponentRef → Bool) : Expr → Bool
  | .literal _ => true
  | .ref r => r.callsOnly ok
  | .apply (.named _) es => Expr.allCallsOnly ok es
  | .apply (.function r) es => ok r && r.callsOnly ok && Expr.allCallsOnly ok es
  | .conditional cs es => Expr.allCallsOnly ok cs && Expr.allCallsOnly ok es
  | .array es => Expr.allCallsOnly ok es
  | .slice a b c => a.callsOnly ok && b.callsOnly ok && c.callsOnly ok
  | .tuple es => Expr.allCallsOnly ok es
  | .component _ => true
  | .modification _ => true

def Expr.allCallsOnly (ok : ComponentRef → Bool) : List Expr → Bool
  | [] => true
  | e :: es => e.callsOnly ok && Expr.allCallsOnly ok es

def ComponentRef.callsOnly (ok : ComponentRef → Bool) : ComponentRef → Bool
  | .mk _ groups none => Expr.groupsCallOnly ok groups
  | .mk _ groups (some c) => Expr.groupsCallOnly ok groups && c.callsOnly ok

def Expr.groupsCallOnly (ok : ComponentRef → Bool) : List (Option (List Expr)) → Bool
  | [] => true
  | none :: rest => Expr.groupsCallOnly ok rest
  | some es :: rest => Expr.allCallsOnly ok es && Expr.groupsCallOnly ok rest

end

section Unchanged

-- the assumption on calls is used by one of the four mutual statements only
set_option linter.unusedSectionVars false

variable {m : Type → Type} [Monad m] (J : Judgement m) (f : Renaming m)
  {ok : ComponentRef → Bool}
  (call : ∀ r, ok r = true → J.gives (f.call r) fun o => o = .function r)

include call

mutual

theorem Expr.rename_same (e : Expr) (bare : e.bare = true) (calls : e.callsOnly ok = true) :
    J.gives (e.rename f) fun e' => e' = e := by
  match e with
  | .literal _ => exact J.pure rfl
  | .ref r =>
    refine J.bind (ComponentRef.rename_same r bare calls) fun r' same => J.pure ?_
    rw [same]
  | .apply (.named _) es =>
    rw [Expr.bare, and_eq_true] at bare
    refine J.bind (Expr.renameAll_same es bare.2 calls) fun es' same => J.pure ?_
    rw [same]
  | .apply (.function r) es =>
    rw [Expr.bare, and_eq_true] at bare
    simp only [Expr.callsOnly, and_eq_true] at calls
    refine J.bind (ComponentRef.rename_same r bare.1 calls.1.2) fun r' first => ?_
    refine J.bind (Expr.renameAll_same es bare.2 calls.2) fun es' others => ?_
    subst first
    refine J.bind (call r' calls.1.1) fun o same => J.pure ?_
    rw [same, others]
  | .conditional cs es =>
    rw [Expr.bare, and_eq_true] at bare
    rw [Expr.callsOnly, and_eq_true] at calls
    exact J.two (Expr.renameAll_same cs bare.1 calls.1) (Expr.renameAll_same es bare.2 calls.2)
      fun _ _ first second => by rw [first, second]
  | .array es | .tuple es =>
    refine J.bind (Expr.renameAll_same es bare calls) fun es' same => J.pure ?_
    rw [same]
  | .slice a b c =>
    simp only [Expr.bare, and_eq_true] at bare
    simp only [Expr.callsOnly, and_eq_true] at calls
    refine J.bind (Expr.rename_same a bare.1.1 calls.1.1) fun a' first => ?_
    refine J.bind (Expr.rename_same b bare.1.2 calls.1.2) fun b' second => ?_
    refine J.bind (Expr.rename_same c bare.2 calls.2) fun c' third => J.pure ?_
    rw [first, second, third]

theorem Expr.renameAll_same (es : List Expr) (bare : Expr.allBare es = true) (calls : Expr.allCallsOnly ok es = true) :
    J.gives (Expr.renameAll f es) fun es' => es' = es := by
  match es with
  | [] => exact J.pure rfl
  | e :: es =>
    rw [Expr.allBare, and_eq_true] at bare
    rw [Expr.allCallsOnly, and_eq_true] at calls
    exact J.two (Expr.rename_same e bare.1 calls.1) (Expr.renameAll_same es bare.2 calls.2)
      fun _ _ first others => by rw [first, others]

theorem ComponentRef.rename_same (r : ComponentRef) (bare : r.bare = true)
    (calls : r.callsOnly ok = true) : J.gives (r.rename f) fun r' => r' = r := by
  match r with
  | .mk _ groups none =>
    refine J.bind (Expr.renameGroups_same groups bare calls) fun groups' same => J.pure ?_
    rw [same]
  | .mk _ groups (some c) =>
    rw [ComponentRef.bare, and_eq_true] at bare
    rw [ComponentRef.callsOnly, and_eq_true] at calls
    exact J.two (Expr.renameGroups_same groups bare.1 calls.1) (ComponentRef.rename_same c bare.2 calls.2)
      fun _ _ first second => by rw [first, second]

theorem Expr.renameGroups_same (groups : List (Option (List Expr)))
    (bare : Expr.groupsBare groups = true) (calls : Expr.groupsCallOnly ok groups = true) :
    J.gives (Expr.renameGroups f groups) fun groups' => groups' = groups := by
  match groups with
  | [] => exact J.pure rfl
  | none :: rest =>
    refine J.bind (Expr.renameGroups_same rest bare calls) fun rest' same => J.pure ?_
    rw [same]
  | some es :: rest =>
    rw [Expr.groupsBare, and_eq_true] at bare
    rw [Expr.groupsCallOnly, and_eq_true] at calls
    exact J.two (Expr.renameAll_same es bare.1 calls.1) (Expr.renameGroups_same rest bare.2 calls.2)
      fun _ _ first others => by rw [first, others]

end

end Unchanged

mutual

theorem Expr.callsOnly_any (e : Expr) : e.callsOnly (fun _ => true) = true := by
  match e with
  | .literal _ | .component _ | .modification _ => rfl
  | .ref r => exact r.callsOnly_any
  | .apply (.named _) es | .array es | .tuple es => exact Expr.allCallsOnly_any es
  | .apply (.function r) es => simp [Expr.callsOnly, r.callsOnly_any, Expr.allCallsOnly_any es]
  | .conditional cs es => simp [Expr.callsOnly, Expr.allCallsOnly_any cs, Expr.allCallsOnly_any es]
  | .slice a b c => simp [Expr.callsOnly, a.callsOnly_any, b.callsOnly_any, c.callsOnly_any]

theorem Expr.allCallsOnly_any (es : List Expr) : Expr.allCallsOnly (fun _ => true) es = true := by
  match es with
  | [] => rfl
  | e :: es => simp [Expr.allCallsOnly, e.callsOnly_any, Expr.allCallsOnly_any es]

theorem ComponentRef.callsOnly_any (r : ComponentRef) : r.callsOnly (fun _ => true) = true := by
  match r with
  | .mk _ groups none => exact Expr.groupsCallOnly_any groups
  | .mk _ groups (some c) =>
    simp [ComponentRef.callsOnly, Expr.groupsCallOnly_any groups, c.callsOnly_any]

theorem Expr.groupsCallOnly_any (groups : List (Option (List Expr))) :
    Expr.groupsCallOnly (fun _ => true) groups = true := by
  match groups with
  | [] => rfl
  | none :: rest => exact Expr.groupsCallOnly_any rest
  | some es :: rest =>
    simp [Expr.groupsCallOnly, Expr.allCallsOnly_any es, Expr.groupsCallOnly_any rest]

end

section Rename

variable {m : Type → Type} [Monad m] [LawfulMonad m] (f : Renaming m)
  (keeps : ∀ r, f.call r = pure (.function r))

include keeps

theorem Expr.rename_of_bare (e : Expr) (bare : e.bare = true) : e.rename f = pure e := by
  obtain ⟨_, same, rfl⟩ := e.rename_same (.still m) f (fun r _ => ⟨_, keeps r, rfl⟩) bare e.callsOnly_any
  exact same

theorem ComponentRef.rename_of_bare (r : ComponentRef) (bare : r.bare = true) : r.rename f = pure r := by
  obtain ⟨_, same, rfl⟩ := r.rename_same (.still m) f (fun r _ => ⟨_, keeps r, rfl⟩) bare r.callsOnly_any
  exact same

theorem rows_of_bare (rows : List (List Expr)) (bare : ∀ e ∈ rows.flatten, e.bare = true) :
    f.mapping.rows rows = pure rows := by
  obtain ⟨_, same, each⟩ := f.mapping.rows_gives (.still m) (R := fun e e' => e' = e)
    (fun e bare => ⟨e, e.rename_of_bare f keeps bare, rfl⟩) rows bare
  rw [same, eq_of_forall₂ (fun _ _ => eq_of_forall₂ fun _ _ => id) each]

end Rename

section Light

variable (ok : String → Bool)

-- A modification, or a reference with one name or a first name of a certain kind, without entries in its
-- subscripts.
def Part.light : Part → Bool
  | .ref r => (r.child.isNone || ok r.name) && r.bare
  | .entry (.modification _) => true
  | .entry _ => false

def Expr.light (e : Expr) : Bool := e.parts.all (Part.light ok)

def Expr.allLight (es : List Expr) : Bool := (Expr.allParts es).all (Part.light ok)

def Operator.light (o : Operator) : Bool := o.parts.all (Part.light ok)

theorem Expr.allLight_iff (es : List Expr) : Expr.allLight ok es = true ↔ ∀ e ∈ es, e.light ok = true := by
  induction es with
  | nil => simp [Expr.allLight, Expr.allParts]
  | cons e es ih =>
    rw [Expr.allLight, Expr.allParts, List.all_append, and_eq_true, List.forall_mem_cons]
    exact and_congr Iff.rfl ih

theorem Expr.light_apply (o : Operator) (es : List Expr) :
    (Expr.apply o es).light ok = (o.light ok && Expr.allLight ok es) := by
  rw [Expr.light, Expr.parts, List.all_append]
  rfl

theorem Expr.light_conditional (cs es : List Expr) :
    (Expr.conditional cs es).light ok = (Expr.allLight ok cs && Expr.allLight ok es) := by
  rw [Expr.light, Expr.parts, List.all_append]
  rfl

theorem Expr.light_slice (a b c : Expr) : (Expr.slice a b c).light ok = (a.light ok && b.light ok && c.light ok) := by
  rw [Expr.light, Expr.parts, List.all_append, List.all_append]
  rfl

theorem Expr.allLight_cons (e : Expr) (es : List Expr) :
    Expr.allLight ok (e :: es) = (e.light ok && Expr.allLight ok es) := by
  rw [Expr.allLight, Expr.allParts, List.all_append]
  rfl

theorem Expr.light_ref (r : ComponentRef) : (Expr.ref r).light ok = (Part.ref r).light ok := by
  rw [Expr.light, Expr.parts, List.all_cons, List.all_nil, Bool.and_true]

theorem Operator.light_function (r : ComponentRef) : (Operator.function r).light ok = (Part.ref r).light ok := by
  rw [Operator.light, Operator.parts, List.all_cons, List.all_nil, Bool.and_true]

end Light

section Rename

-- the assumptions are used by one of the two mutual statements only
set_option linter.unusedSectionVars false

variable {m : Type → Type} [Monad m] [LawfulMonad m] (J : Judgement m) (f : Renaming m)
  {ok : String → Bool} (modification : ∀ n, J.gives (f.modification n) fun _ => True)
  (keeps : ∀ r, f.call r = pure (.function r))

include keeps in
theorem ComponentRef.rename_of_light (r : ComponentRef) (light : (Part.ref r).light ok = true) : r.rename f = pure r :=
  r.rename_of_bare f keeps (and_eq_true _ _ ▸ light).2

include modification keeps

mutual

theorem Expr.rename_light (e : Expr) (light : e.light ok = true) :
    J.gives (e.rename f) fun e' => e'.light ok = true := by
  match e with
  | .literal _ => exact J.pure light
  | .ref r =>
    have same := r.rename_of_light f keeps ((Expr.light_ref ok r).symm.trans light)
    rw [Expr.rename, same]
    exact J.pureBind (J.pure light)
  | .apply (.named _) es =>
    rw [Expr.light_apply, and_eq_true] at light
    refine J.bind (Expr.renameAll_light es light.2) fun es' others => J.pure ?_
    rw [Expr.light_apply, others]
    rfl
  | .apply (.function r) es =>
    rw [Expr.light_apply, and_eq_true, Operator.light_function] at light
    rw [Expr.rename, r.rename_of_light f keeps light.1]
    refine J.pureBind (J.bind (Expr.renameAll_light es light.2) fun es' others => ?_)
    rw [keeps]
    refine J.pureBind (J.pure ?_)
    rw [Expr.light_apply, Operator.light_function, light.1, others]
    rfl
  | .conditional cs es =>
    rw [Expr.light_conditional, and_eq_true] at light
    refine J.two (Expr.renameAll_light cs light.1) (Expr.renameAll_light es light.2) fun _ _ first second => ?_
    rw [Expr.light_conditional, first, second]
    rfl
  | .array es | .tuple es => exact J.bind (Expr.renameAll_light es light) fun es' others => J.pure others
  | .slice a b c =>
    simp only [Expr.light_slice, and_eq_true] at light
    refine J.bind (Expr.rename_light a light.1.1) fun a' first => ?_
    refine J.bind (Expr.rename_light b light.1.2) fun b' second => ?_
    refine J.bind (Expr.rename_light c light.2) fun c' third => J.pure ?_
    rw [Expr.light_slice, first, second, third]
    rfl
  | .modification n => exact J.bind (modification n) fun _ _ => J.pure rfl

theorem Expr.renameAll_light (es : List Expr) (light : Expr.allLight ok es = true) :
    J.gives (Expr.renameAll f es) fun es' => Expr.allLight ok es' = true := by
  match es with
  | [] => exact J.pure rfl
  | e :: es =>
    rw [Expr.allLight_cons, and_eq_true] at light
    refine J.two (Expr.rename_light e light.1) (Expr.renameAll_light es light.2) fun _ _ first others => ?_
    rw [Expr.allLight_cons, first, others]
    rfl

end

end Rename

section Qualify

variable (s : Surroundings)

theorem Expr.groupsBare_append (gs hs : List (Option (List Expr))) :
    Expr.groupsBare (gs ++ hs) = (Expr.groupsBare gs && Expr.groupsBare hs) := by
  induction gs with
  | nil => rfl
  | cons g gs ih =>
    cases g with
    | none => exact ih
    | some es =>
      rw [List.cons_append, Expr.groupsBare, Expr.groupsBare, ih, Bool.and_assoc]

mutual

theorem Expr.bare_qualify (e : Expr) (bare : e.bare = true) : (e.qualify s).bare = true := by
  match e with
  | .literal _ => rfl
  | .ref r => exact ComponentRef.bare_qualify r bare
  | .apply o es =>
    rw [Expr.bare, and_eq_true] at bare
    rw [Expr.qualify, Expr.bare, Operator.bare_qualify o bare.1, Expr.allBare_qualifyAll es bare.2]
    rfl
  | .conditional cs es =>
    rw [Expr.bare, and_eq_true] at bare
    rw [Expr.qualify, Expr.bare, Expr.allBare_qualifyAll cs bare.1, Expr.allBare_qualifyAll es bare.2]
    rfl
  | .array es | .tuple es => exact Expr.allBare_qualifyAll es bare
  | .slice a b c =>
    simp only [Expr.bare, and_eq_true] at bare
    rw [Expr.qualify, Expr.bare, Expr.bare_qualify a bare.1.1, Expr.bare_qualify b bare.1.2, Expr.bare_qualify c bare.2]
    rfl

theorem Expr.allBare_qualifyAll (es : List Expr) (bare : Expr.allBare es = true) :
    Expr.allBare (Expr.qualifyAll s es) = true := by
  match es with
  | [] => rfl
  | e :: es =>
    rw [Expr.allBare, and_eq_true] at bare
    rw [Expr.qualifyAll, Expr.allBare, Expr.bare_qualify e bare.1, Expr.allBare_qualifyAll es bare.2]
    rfl

theorem ComponentRef.bare_qualify (r : ComponentRef) (bare : r.bare = true) : (r.qualify s).bare = true := by
  match r with
  | .mk name groups none =>
    rw [ComponentRef.qualify]
    split
    · rw [ComponentRef.qualifyRest, List.append_nil]
      exact Expr.groupsBare_qualifyGroups groups bare
    · exact bare
  | .mk name groups (some c) =>
    rw [ComponentRef.qualify]
    split
    · rw [ComponentRef.bare, and_eq_true] at bare
      rw [ComponentRef.bare, Expr.groupsBare_append, Expr.groupsBare_qualifyGroups groups bare.1,
        ComponentRef.groupsBare_qualifyRest c bare.2]
      rfl
    · exact bare

theorem ComponentRef.groupsBare_qualifyRest (r : ComponentRef) (bare : r.bare = true) :
    Expr.groupsBare (ComponentRef.qualifyRest s (some r)) = true := by
  match r with
  | .mk name groups none =>
    rw [ComponentRef.qualifyRest, ComponentRef.qualifyRest, List.append_nil]
    exact Expr.groupsBare_qualifyGroups groups bare
  | .mk name groups (some c) =>
    rw [ComponentRef.bare, and_eq_true] at bare
    rw [ComponentRef.qualifyRest, Expr.groupsBare_append,
      Expr.groupsBare_qualifyGroups groups bare.1, ComponentRef.groupsBare_qualifyRest c bare.2]
    rfl

theorem Expr.groupsBare_qualifyGroups (groups : List (Option (List Expr))) (bare : Expr.groupsBare groups = true) :
    Expr.groupsBare (Expr.qualifyGroups s groups) = true := by
  match groups with
  | [] => rfl
  | none :: rest => exact Expr.groupsBare_qualifyGroups rest bare
  | some es :: rest =>
    rw [Expr.groupsBare, and_eq_true] at bare
    rw [Expr.qualifyGroups, Expr.groupsBare, Expr.allBare_qualifyAll es bare.1,
      Expr.groupsBare_qualifyGroups rest bare.2]
    rfl

theorem Operator.bare_qualify (o : Operator) (bare : o.bare = true) : (o.qualify s).bare = true := by
  match o with
  | .named _ => rfl
  | .function r => exact ComponentRef.bare_qualify r bare

end

section Light

variable (ok : String → Bool)

theorem ComponentRef.light_qualify (r : ComponentRef) (light : (Part.ref r).light ok = true) :
    (Part.ref (r.qualify s)).light ok = true := by
  have bare : (r.qualify s).bare = true := r.bare_qualify s (and_eq_true _ _ ▸ light).2
  obtain ⟨name, groups, child⟩ := r
  rw [ComponentRef.qualify] at bare ⊢
  split at bare
  · next known =>
    rw [if_pos known]
    exact bare
  · next unknown =>
    rw [if_neg unknown]
    exact light

def Part.qualify : Part → Part
  | .ref r => .ref (r.qualify s)
  | .entry e => .entry e

mutual

theorem Expr.parts_qualify (e : Expr) : (e.qualify s).parts = e.parts.map (Part.qualify s) := by
  match e with
  | .literal _ | .ref _ | .component _ | .modification _ => rfl
  | .apply (.function r) es => exact congrArg (Part.ref (r.qualify s) :: ·) (Expr.allParts_qualifyAll es)
  | .conditional cs es =>
    rw [Expr.qualify, Expr.parts, Expr.parts, List.map_append, Expr.allParts_qualifyAll cs, Expr.allParts_qualifyAll es]
  | .apply (.named _) es | .array es | .tuple es => exact Expr.allParts_qualifyAll es
  | .slice a b c => simp [Expr.qualify, Expr.parts, Expr.parts_qualify a, Expr.parts_qualify b, Expr.parts_qualify c]

theorem Expr.allParts_qualifyAll (es : List Expr) :
    Expr.allParts (Expr.qualifyAll s es) = (Expr.allParts es).map (Part.qualify s) := by
  match es with
  | [] => rfl
  | e :: es =>
    rw [Expr.qualifyAll, Expr.allParts, Expr.allParts, List.map_append, Expr.parts_qualify e, Expr.allParts_qualifyAll es]

end

theorem Expr.light_qualify (e : Expr) (light : e.light ok = true) : (e.qualify s).light ok = true := by
  rw [Expr.light, e.parts_qualify, List.all_map]
  refine List.all_eq_true.2 fun part member => ?_
  have own := List.all_eq_true.1 light part member
  cases part with
  | ref r => exact r.light_qualify s ok own
  | entry e => exact own

end Light

end Qualify

end Modelica
