import Modelica.Expr.Qualify
import Modelica.Proofs.Expr.Over

set_option autoImplicit false

namespace Modelica

def Surroundings.mapping (s : Surroundings) : Mapping Id :=
  ⟨fun e => pure (e.qualify s), fun r => pure (r.qualify s)⟩

namespace Mapping

section

variable {m n : Type → Type} [Monad m] [Monad n]

-- The effects of one mapping become those of the other, step by step.
structure Agree (f : Mapping m) (g : Mapping n) (into : ∀ α, m α → n α) (p : Expr → Prop) : Prop where
  pure : ∀ {α} (a : α), into α (pure a) = pure a
  bind : ∀ {α β} (x : m α) (k : α → m β), into β (x >>= k) = into α x >>= fun a => into β (k a)
  expr : ∀ e, p e → into _ (f.expr e) = g.expr e
  ref : ∀ r, p (.ref r) → into _ (f.ref r) = g.ref r

variable {f : Mapping m} {g : Mapping n} {into : ∀ α, m α → n α} {p : Expr → Prop} (agree : f.Agree g into p)
include agree

theorem Agree.two {α β γ : Type} {x : m α} {y : m β} {x' : n α} {y' : n β} {k : α → β → γ} (first : into α x = x')
    (second : into β y = y') : into γ (do return k (← x) (← y)) = do return k (← x') (← y') := by
  simp only [agree.bind, agree.pure, first, second]

theorem Agree.exprs (es : List Expr) (each : ∀ e ∈ es, p e) : into _ (f.exprs es) = g.exprs es := by
  induction es with
  | nil => exact agree.pure _
  | cons e es ih =>
    rw [List.forall_mem_cons] at each
    exact agree.two (agree.expr e each.1) (ih each.2)

theorem Agree.rows (rows : List (List Expr)) (each : ∀ es ∈ rows, ∀ e ∈ es, p e) :
    into _ (f.rows rows) = g.rows rows := by
  induction rows with
  | nil => exact agree.pure _
  | cons es rows ih =>
    rw [List.forall_mem_cons] at each
    exact agree.two (agree.exprs es each.1) (ih each.2)

theorem Agree.indices (is : List ForIndex) (each : ∀ i ∈ is, p i.domain) : into _ (f.indices is) = g.indices is := by
  induction is with
  | nil => exact agree.pure _
  | cons i is ih =>
    rw [List.forall_mem_cons] at each
    exact agree.two (agree.expr _ each.1) (ih each.2)

mutual

theorem Agree.equation (e : Equation) (each : e.Over p) : into _ (f.equation e) = g.equation e := by
  match e with
  | .simple l r _ => exact agree.two (agree.expr _ each.1) (agree.expr _ each.2)
  | .ifThen cs bs _ | .whenThen cs bs _ => exact agree.two (agree.exprs cs each.1) (Agree.equationBlocks bs each.2)
  | .forLoop is es _ => exact agree.two (agree.indices is each.1) (Agree.equations es each.2)
  | .connect l r _ _ => exact agree.two (agree.ref l each.1) (agree.ref r each.2)
  | .call _ es _ => simp only [Mapping.equation, agree.bind, agree.pure, agree.exprs es each]

theorem Agree.equations (es : List Equation) (each : Equation.AllOver p es) :
    into _ (f.equations es) = g.equations es := by
  match es with
  | [] => exact agree.pure _
  | e :: es => exact agree.two (Agree.equation e each.1) (Agree.equations es each.2)

theorem Agree.equationBlocks (bs : List (List Equation)) (each : Equation.BlocksOver p bs) :
    into _ (f.equationBlocks bs) = g.equationBlocks bs := by
  match bs with
  | [] => exact agree.pure _
  | b :: bs => exact agree.two (Agree.equations b each.1) (Agree.equationBlocks bs each.2)

end

mutual

theorem Agree.statement (s : Statement) (each : s.Over p) : into _ (f.statement s) = g.statement s := by
  match s with
  | .assign ls r _ => exact agree.two (agree.exprs ls each.1) (agree.expr r each.2)
  | .ifThen cs bs _ => exact agree.two (agree.exprs cs each.1) (Agree.statementBlocks bs each.2)
  | .forLoop is ss _ => exact agree.two (agree.indices is each.1) (Agree.statements ss each.2)

theorem Agree.statements (ss : List Statement) (each : Statement.AllOver p ss) :
    into _ (f.statements ss) = g.statements ss := by
  match ss with
  | [] => exact agree.pure _
  | s :: ss => exact agree.two (Agree.statement s each.1) (Agree.statements ss each.2)

theorem Agree.statementBlocks (bs : List (List Statement)) (each : Statement.BlocksOver p bs) :
    into _ (f.statementBlocks bs) = g.statementBlocks bs := by
  match bs with
  | [] => exact agree.pure _
  | b :: bs => exact agree.two (Agree.statements b each.1) (Agree.statementBlocks bs each.2)

end

theorem Agree.constraint (c : Constraint) (each : c.Over p) : into _ (f.constraint c) = g.constraint c := by
  exact agree.two (agree.expr _ each.1) (agree.expr _ each.2)

theorem Agree.constraints (cs : List Constraint) (each : ∀ c ∈ cs, c.Over p) :
    into _ (f.constraints cs) = g.constraints cs := by
  induction cs with
  | nil => exact agree.pure _
  | cons c cs ih =>
    rw [List.forall_mem_cons] at each
    exact agree.two (agree.constraint c each.1) (ih each.2)

end

def still {m : Type → Type} [Monad m] (f : Mapping Id) : Mapping m :=
  ⟨fun e => pure (f.expr e).run, fun r => pure (f.ref r).run⟩

variable {m : Type → Type} [Monad m] (f : Mapping Id)

theorem still_expr (e : Expr) : (f.still : Mapping m).expr e = pure (f.expr e).run := rfl

theorem still_ref (r : ComponentRef) : (f.still : Mapping m).ref r = pure (f.ref r).run := rfl

variable [LawfulMonad m]

theorem still_agree : f.Agree (f.still : Mapping m) (fun _ x => pure x.run) fun _ => True :=
  ⟨fun _ => rfl, fun x k => (pure_bind x.run fun a => pure (k a).run).symm, fun _ _ => rfl, fun _ _ => rfl⟩

theorem still_exprs (es : List Expr) : (f.still : Mapping m).exprs es = pure (f.exprs es).run :=
  (f.still_agree.exprs es fun _ _ => trivial).symm

theorem still_rows (rows : List (List Expr)) : (f.still : Mapping m).rows rows = pure (f.rows rows).run :=
  (f.still_agree.rows rows fun _ _ _ _ => trivial).symm

theorem still_equation (e : Equation) : (f.still : Mapping m).equation e = pure (f.equation e).run :=
  (f.still_agree.equation e e.over_any).symm

theorem still_statement (s : Statement) : (f.still : Mapping m).statement s = pure (f.statement s).run :=
  (f.still_agree.statement s s.over_any).symm

theorem still_constraint (c : Constraint) : (f.still : Mapping m).constraint c = pure (f.constraint c).run :=
  (f.still_agree.constraint c ⟨trivial, trivial⟩).symm

end Mapping

end Modelica
