import Modelica.Proofs.Library.Qualified

set_option autoImplicit false

namespace Modelica

open StateT (run_bind run_lift run_pure)

variable (ok : String → Bool)

-- No entry stands in the expression, and only functions are called whose names are no class.
def Expr.Basic (e : Expr) : Prop := e.bare = true ∧ e.callsOnly (fun r => ok r.name) = true

def Equation.qualify (s : Surroundings) (e : Equation) : Equation := (s.mapping.equation e).run

def Statement.qualify (s : Surroundings) (st : Statement) : Statement := (s.mapping.statement st).run

def Constraint.qualify (s : Surroundings) (c : Constraint) : Constraint := (s.mapping.constraint c).run

structure ClassDef.Basic (d : ClassDef) : Prop where
  equations : ∀ e ∈ d.equations, e.Over (Expr.Basic ok)
  constraints : ∀ c ∈ d.constraints, c.Over (Expr.Basic ok)
  initialEquations : ∀ e ∈ d.initialEquations, e.Over (Expr.Basic ok)
  statements : ∀ s ∈ d.statements, s.Over (Expr.Basic ok)
  initialStatements : ∀ s ∈ d.initialStatements, s.Over (Expr.Basic ok)

def ClassDef.addQualified (s : Surroundings) (d f : ClassDef) : ClassDef :=
  { f with
    equations := f.equations ++ d.equations.map fun e => Build.markSides e (e.qualify s)
    constraints := f.constraints ++ d.constraints.map (Constraint.qualify s)
    initialEquations := f.initialEquations ++ d.initialEquations.map (Equation.qualify s)
    statements := f.statements ++ d.statements.map (Statement.qualify s)
    initialStatements := f.initialStatements ++ d.initialStatements.map (Statement.qualify s) }

theorem Judgement.mapM {m : Type → Type} [Monad m] [LawfulMonad m] (J : Judgement m) {α β : Type}
    (f : α → m β) (g : α → β) (xs : List α) (each : ∀ x ∈ xs, J.gives (f x) (· = g x)) :
    J.gives (xs.mapM f) (· = xs.map g) := by
  induction xs with
  | nil =>
    rw [List.mapM_nil]
    exact J.pure rfl
  | cons x xs ih =>
    rw [List.mapM_cons]
    rw [List.forall_mem_cons] at each
    exact J.two each.1 (ih each.2) fun _ _ first others => by rw [first, others, List.map_cons]

namespace Library

variable {ok} {lib : Library}

theorem modifyClass_modifyClass (lib : Library) (c : ClassId) (f g : ClassDef → ClassDef) :
    (lib.modifyClass c f).modifyClass c g = lib.modifyClass c fun d => g (f d) := by
  have same : (lib.classes.modify c.index f).modify c.index g = lib.classes.modify c.index fun d => g (f d) := by
    refine Array.ext (by simp) fun i _ _ => ?_
    by_cases at_ : c.index = i <;> simp [Array.getElem_modify, at_]
  rw [modifyClass, modifyClass, modifyClass, same]

section

variable (light : lib.Light ok) (c : ClassId) (name : String) (rest : List String)
  (holds : ok name = true)
include light holds

theorem descend_of_ok : lib.descend c (name :: rest) = none := by
  have absent : (lib.classOf c).classes.find? (some name) = none := by
    rw [OrderedMap.find?_eq_none_iff]
    intro member
    have each := List.all_eq_true.1 (light.classes c) _ member
    simp [holds] at each
  rw [descend, absent]

theorem findClass?_of_ok : lib.findClass? c (name :: rest) = none := by
  rw [findClass?_scan, List.findSome?_eq_none_iff]
  exact fun d _ => descend_of_ok light d name rest holds

end

end Library

namespace Build

open Library

variable {ok} {now : Library}

variable {good : ClassId → Library → Prop} {bad : Error → Library → Prop}

section

variable (light : now.Light ok) (id : ClassId) (r : ComponentRef) (holds : ok r.name = true)
include light holds

theorem findClass_of_ok :
    (findClass id r).Ensures now good bad ↔ bad (.classNotFound r.text) now := by
  obtain ⟨rest, names⟩ := r.names_eq_cons
  rw [findClass, bind_get, names, findClass?_of_ok light id _ rest holds]
  exact ensures_throw _

theorem instantiable_of_ok (elementary : bad .elementaryClass now)
    (missing : bad (.classNotFound r.text) now) : (instantiable id r).Ensures now good bad := by
  unfold instantiable
  extract_lets rest
  split
  · rw [ensures_bind, ensures_throw]
    exact elementary
  · unfold rest
    rw [ensures_bind, findClass_of_ok light id r holds]
    exact missing

end

def quiet (now : Library) : Judgement (StateT Calls (EStateM Error Library)) where
  gives x post := ∀ calls, Ensures (x.run calls) now
    (fun r next => next = now ∧ r.2 = calls ∧ post r.1) fun _ _ => True
  pure holds := fun calls => by
    rw [StateT.run_pure, ensures_pure]
    exact ⟨rfl, rfl, holds⟩
  bind first second := fun calls => by
    rw [StateT.run_bind, ensures_bind]
    refine (first calls).imp ?_
    rintro ⟨a, _⟩ _ ⟨rfl, rfl, holds⟩
    exact second a holds _

theorem quiet_lift {α : Type} (x : Build α) (post : α → Prop)
    (reads : x.Ensures now (fun a next => next = now ∧ post a) anyhow) :
    (quiet now).gives (StateT.lift x) post := fun calls => by
  rw [run_lift, ensures_bind]
  exact reads.imp fun a next ⟨same, holds⟩ => .pure ⟨same, rfl, holds⟩

theorem quiet_bind {α β : Type} {x : Calling α} {a : α} (gives : (quiet now).gives x (· = a))
    {f : α → Calling β} {calls : Calls} {good : β × Calls → Library → Prop}
    (after : Ensures ((f a).run calls) now good anyhow) :
    Ensures ((x >>= f).run calls) now good anyhow := by
  rw [run_bind, ensures_bind]
  refine (gives calls).imp ?_
  rintro ⟨_, _⟩ _ ⟨rfl, rfl, rfl⟩
  exact after

theorem resolveCall_of_ok (light : now.Light ok) (id : ClassId) (r : ComponentRef)
    (holds : ok r.name = true) : (quiet now).gives (resolveCall id r) (· = .function r) := by
  refine (quiet now).bind (quiet_lift _ (· = none) ?_) fun found missing => ?_
  · rw [ensures_tryCatch, ensures_bind]
    refine instantiable_of_ok light id r holds ?_ ?_
    · exact .throw
    · exact .pure ⟨rfl, rfl⟩
  · subst missing
    exact (quiet now).pure rfl

theorem entriesIn_of_bare (es : List Expr) (bare : ∀ e ∈ es, e.bare = true) : entriesIn es = [] := by
  refine Expr.entries_of_allBare es ?_
  induction es with
  | nil => rfl
  | cons e es ih =>
    rw [Expr.allBare, bare e List.mem_cons_self]
    exact ih fun e member => bare e (List.mem_cons_of_mem _ member)

section Kinds

variable {α : Type} (x : α)

theorem copyInside_of_pure (go : Mapping (StateT Copy.Memo (EStateM Error Library)) → Copy.Copying α)
    (same : ∀ f : Renaming (StateT Copy.Memo (EStateM Error Library)),
      (∀ r, f.call r = pure (.function r)) → go f.mapping = pure x) :
    (copyInside go).Ensures now (fun a next => next = now ∧ a = x) anyhow := by
  rw [copyInside, bind_get]
  extract_lets fuel ids
  rw [same ids fun _ => rfl, run_pure, pure_bind]
  exact .pure ⟨rfl, rfl⟩

theorem quiet_resolve (id : ClassId) (copy : Build α) (go : α → Calling α) (exprs : α → List Expr)
    (copies : copy.Ensures now (fun a next => next = now ∧ a = x) anyhow)
    (goes : (quiet now).gives (go x) (· = x)) (bare : ∀ e ∈ exprs x, e.bare = true) :
    (quiet now).gives (do
      let a ← StateT.lift copy
      let a ← go a
      resolveEntries id (entriesIn (exprs a))
      return a) (· = x) := by
  refine (quiet now).bind (quiet_lift copy (· = x) copies) fun a same => ?_
  subst same
  refine (quiet now).bind goes fun b same => ?_
  subst same
  have none : (quiet now).gives (resolveEntries id []) fun _ => True :=
    (quiet now).bind (quiet_lift get (fun _ => True) (ensures_get.2 ⟨rfl, trivial⟩)) fun _ _ => (quiet now).pure trivial
  rw [entriesIn_of_bare _ bare]
  exact (quiet now).bind none fun _ _ => (quiet now).pure rfl

theorem qualify_of_bare (s : Surroundings) (copy : Build α) (go : α → Build α) (y : α) (exprs : α → List Expr)
    (copies : copy.Ensures now (fun a next => next = now ∧ a = x) anyhow)
    (goes : go x = pure y) (bare : ∀ e ∈ exprs x, e.bare = true) :
    Ensures (do
      let a ← copy
      qualifyEntries s (entriesIn (exprs a))
      go a) now (fun a next => next = now ∧ a = y) anyhow := by
  refine copies.bind ?_
  rintro a _ ⟨rfl, rfl⟩
  rw [entriesIn_of_bare _ bare, goes, ensures_bind, qualifyEntries, bind_get]
  show Ensures (pure () >>= _) _ _ _
  rw [pure_bind]
  exact .pure (.pure ⟨rfl, rfl⟩)

end Kinds

theorem resolving_expr (light : now.Light ok) (id : ClassId) (e : Expr) (basic : e.Basic ok) :
    (quiet now).gives ((resolving id).expr e) (· = e) :=
  Expr.rename_same (quiet now) _ (fun r => resolveCall_of_ok light id r) e basic.1 basic.2

theorem resolving_ref (light : now.Light ok) (id : ClassId) (r : ComponentRef) (basic : (Expr.ref r).Basic ok) :
    (quiet now).gives ((resolving id).ref r) fun r' => Expr.ref r' = .ref r :=
  (quiet now).mono (ComponentRef.rename_same (quiet now) _ (fun r => resolveCall_of_ok light id r)
    r basic.1 basic.2) fun _ same => congrArg Expr.ref same

section

variable (f : Renaming (StateT Copy.Memo (EStateM Error Library)))
  (keeps : ∀ r, f.call r = pure (.function r))
include f keeps

theorem copies_expr (e : Expr) (basic : e.Basic ok) : f.mapping.expr e = pure e := e.rename_of_bare f keeps basic.1

theorem copies_ref (r : ComponentRef) (basic : (Expr.ref r).Basic ok) :
    f.mapping.ref r = pure r := r.rename_of_bare f keeps basic.1

end

theorem resolveEquation_of_basic (light : now.Light ok) (id : ClassId) (e : Equation)
    (each : e.Over (Expr.Basic ok)) : (quiet now).gives (resolveEquation id e) (· = e) := by
  refine quiet_resolve e id _ _ Equation.exprs (copyInside_of_pure e (·.equation e) fun f keeps => ?_) ?_
    fun x member => (each.exprs e x member).1
  · exact each.eq_pure f.mapping (copies_expr f keeps) (copies_ref f keeps) e
  · refine (quiet now).mono ?_ fun e' (related : e.Rel _ e') => related.eq fun _ _ same => same
    exact (resolving id).equation_gives (quiet now) (resolving_expr light id) (resolving_ref light id) e each

theorem resolveStatement_of_basic (light : now.Light ok) (id : ClassId) (s : Statement)
    (each : s.Over (Expr.Basic ok)) : (quiet now).gives (resolveStatement id s) (· = s) := by
  refine quiet_resolve s id _ _ Statement.exprs (copyInside_of_pure s (·.statement s) fun f keeps => ?_) ?_
    fun x member => (each.exprs s x member).1
  · exact each.eq_pure f.mapping (copies_expr f keeps) s
  · refine (quiet now).mono ?_ fun s' (related : s.Rel _ s') => related.eq fun _ _ same => same
    exact (resolving id).statement_gives (quiet now) (resolving_expr light id) s each

theorem Constraint.bare_exprs (c : Constraint) (each : c.Over (Expr.Basic ok)) : ∀ x ∈ c.exprs, x.bare = true := by
  simp only [Constraint.exprs, List.forall_mem_cons, List.not_mem_nil, false_imp_iff, implies_true, and_true]
  exact ⟨each.1.1, each.2.1⟩

theorem resolveConstraint_of_basic (light : now.Light ok) (id : ClassId) (c : Constraint)
    (each : c.Over (Expr.Basic ok)) : (quiet now).gives (resolveConstraint id c) (· = c) := by
  refine quiet_resolve c id _ _ Constraint.exprs
    (copyInside_of_pure c (·.constraint c) fun f keeps => ?_) ?_ (Constraint.bare_exprs c each)
  · exact each.eq_pure f.mapping (copies_expr f keeps) c
  · refine (quiet now).mono ?_ fun c' (related : c.Rel _ c') => related.eq fun _ _ same => same
    exact (resolving id).constraint_gives (quiet now) (resolving_expr light id) c each

theorem qualifyEquation_of_basic (s : Surroundings) (e : Equation)
    (each : e.Over (Expr.Basic ok)) : (qualifyEquation s e).Ensures now
      (fun a next => next = now ∧ a = e.qualify s) anyhow := by
  refine qualify_of_bare e s _ _ _ Equation.exprs
    (copyInside_of_pure e (·.equation e) fun f keeps => ?_) (s.mapping.still_equation e)
    fun x member => (each.exprs e x member).1
  exact each.eq_pure f.mapping (copies_expr f keeps) (copies_ref f keeps) e

theorem qualifyStatement_of_basic (s : Surroundings) (st : Statement)
    (each : st.Over (Expr.Basic ok)) : (qualifyStatement s st).Ensures now
      (fun a next => next = now ∧ a = st.qualify s) anyhow := by
  refine qualify_of_bare st s _ _ _ Statement.exprs
    (copyInside_of_pure st (·.statement st) fun f keeps => ?_) (s.mapping.still_statement st)
    fun x member => (each.exprs st x member).1
  exact each.eq_pure f.mapping (copies_expr f keeps) st

theorem qualifyConstraint_of_basic (s : Surroundings) (c : Constraint)
    (each : c.Over (Expr.Basic ok)) : (qualifyConstraint s c).Ensures now
      (fun a next => next = now ∧ a = c.qualify s) anyhow := by
  refine qualify_of_bare c s _ _ _ Constraint.exprs
    (copyInside_of_pure c (·.constraint c) fun f keeps => ?_) (s.mapping.still_constraint c)
    (Constraint.bare_exprs c each)
  exact each.eq_pure f.mapping (copies_expr f keeps) c

theorem ensures_forIn_calling {γ : Type} (xs : List γ) (f : γ → PUnit → Calling (ForInStep PUnit))
    (invariant : List γ → Library → Prop) (calls : Calls) (start : invariant [] now)
    (step : ∀ done x rest now, xs = done ++ x :: rest → invariant done now → Ensures ((f x ⟨⟩).run calls) now
        (fun r next => r = (.yield ⟨⟩, calls) ∧ invariant (done ++ [x]) next) anyhow) :
    Ensures ((forIn xs PUnit.unit f).run calls) now
      (fun r next => r = (PUnit.unit, calls) ∧ invariant xs next) anyhow := by
  have go : ∀ done rest now, xs = done ++ rest → invariant done now → Ensures ((forIn rest PUnit.unit f).run calls) now
        (fun r next => r = (PUnit.unit, calls) ∧ invariant xs next) anyhow := by
    intro done rest
    induction rest generalizing done with
    | nil =>
      intro now all holds
      rw [List.append_nil] at all
      subst all
      exact .pure ⟨rfl, holds⟩
    | cons x rest ih =>
      intro now all holds
      rw [List.forIn_cons, run_bind, ensures_bind]
      refine (step done x rest now all holds).imp ?_
      rintro _ next ⟨rfl, after⟩
      exact ih (done ++ [x]) next (by simp [all]) after
  exact go [] xs now rfl start

theorem flattenEquations_of_basic (light : now.Light ok) (id flat : ClassId) (s : Surroundings)
    (basic : (now.classOf id).Basic ok) (calls : Calls) :
    Ensures ((flattenEquations id flat s).run calls) now (fun r next => r = ((), calls) ∧
      next = now.modifyClass flat ((now.classOf id).addQualified s)) anyhow := by
  rw [flattenEquations, run_bind, ensures_bind, run_lift, bind_classOf, ensures_pure]
  generalize now.classOf id = d at *
  rw [run_bind, ensures_bind]
  refine (ensures_forIn_calling d.equations _ (fun done next => next.Light ok ∧ next = now.modifyClass flat fun f =>
      { f with equations := f.equations ++ done.map fun e => markSides e (e.qualify s) }) calls
    ⟨light, ?_⟩ ?_).imp ?_
  · exact (now.modifyClass_eq_self flat _ (by simp)).symm
  · rintro done e rest mid all ⟨lightMid, same⟩
    have each := basic.equations e (by simp [all])
    refine quiet_bind (resolveEquation_of_basic lightMid id e each)
      (quiet_bind (quiet_lift _ _ (qualifyEquation_of_basic s e each)) ?_)
    rw [run_bind, ensures_bind, run_lift, bind_updateClass, ensures_pure, run_pure, ensures_pure]
    refine ⟨rfl, lightMid.modifyClass flat _ (lightMid.classes flat), ?_⟩
    rw [same, modifyClass_modifyClass]
    simp only [List.map_append, List.map_cons, List.map_nil, List.append_assoc]
  rintro _ mid ⟨rfl, lightMid, same⟩
  rw [run_bind, ensures_bind]
  refine (ensures_forIn_calling d.constraints _ (fun done next => next.Light ok ∧ next = now.modifyClass flat fun f =>
      { f with
        equations := f.equations ++ d.equations.map fun e => markSides e (e.qualify s)
        constraints := f.constraints ++ done.map (Constraint.qualify s) }) calls
    ⟨lightMid, by simp [same]⟩ ?_).imp ?_
  · clear same lightMid
    rintro done c rest mid all ⟨lightMid, same⟩
    have each := basic.constraints c (by simp [all])
    refine quiet_bind (resolveConstraint_of_basic lightMid id c each)
      (quiet_bind (quiet_lift _ _ (qualifyConstraint_of_basic s c each)) ?_)
    rw [run_bind, ensures_bind, run_lift, bind_updateClass, ensures_pure, run_pure, ensures_pure]
    refine ⟨rfl, lightMid.modifyClass flat _ (lightMid.classes flat), ?_⟩
    rw [same, modifyClass_modifyClass]
    simp only [List.map_append, List.map_cons, List.map_nil, List.append_assoc]
  clear same lightMid mid
  rintro _ mid ⟨rfl, lightMid, same⟩
  -- the three other kinds are first resolved and then qualified as a whole
  have resolved₁ := (quiet mid).mapM (resolveEquation id) (fun e => e) d.initialEquations
    fun e member => resolveEquation_of_basic lightMid id e (basic.initialEquations e member)
  have resolved₂ (ss : List Statement) (all : ∀ st ∈ ss, st.Over (Expr.Basic ok)) :=
    (quiet mid).mapM (resolveStatement id) (fun st => st) ss fun st member =>
      resolveStatement_of_basic lightMid id st (all st member)
  have qualified₁ := (quiet mid).mapM (fun e => StateT.lift (qualifyEquation s e))
    (Equation.qualify s) d.initialEquations fun e member =>
      quiet_lift _ _ (qualifyEquation_of_basic s e (basic.initialEquations e member))
  have qualified₂ (ss : List Statement) (all : ∀ st ∈ ss, st.Over (Expr.Basic ok)) :=
    (quiet mid).mapM (fun st => StateT.lift (qualifyStatement s st)) (Statement.qualify s) ss fun st member =>
      quiet_lift _ _ (qualifyStatement_of_basic s st (all st member))
  simp only [List.map_id_fun'] at resolved₁ resolved₂
  refine quiet_bind resolved₁ (quiet_bind (resolved₂ _ basic.statements) (quiet_bind
    (resolved₂ _ basic.initialStatements) (quiet_bind qualified₁ (quiet_bind (qualified₂ _ basic.statements)
      (quiet_bind (qualified₂ _ basic.initialStatements) ?_)))))
  rw [run_lift, bind_updateClass, ensures_pure, same, modifyClass_modifyClass]
  exact ⟨rfl, rfl⟩

end Build

end Modelica
