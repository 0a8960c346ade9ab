import Mathlib.Data.List.Forall2
import Modelica.Library.Reach

set_option autoImplicit false

namespace Modelica

-- of mutual statements only one or two use an assumption about expressions directly
set_option linter.unusedSectionVars false

mutual

def Equation.Over (p : Expr → Prop) : Equation → Prop
  | .simple l r _ => p l ∧ p r
  | .ifThen cs bs _ => (∀ c ∈ cs, p c) ∧ Equation.BlocksOver p bs
  | .whenThen cs bs _ => (∀ c ∈ cs, p c) ∧ Equation.BlocksOver p bs
  | .forLoop is es _ => (∀ i ∈ is, p i.domain) ∧ Equation.AllOver p es
  | .connect l r _ _ => p (.ref l) ∧ p (.ref r)
  | .call _ es _ => ∀ e ∈ es, p e

def Equation.AllOver (p : Expr → Prop) : List Equation → Prop
  | [] => True
  | e :: es => e.Over p ∧ Equation.AllOver p es

def Equation.BlocksOver (p : Expr → Prop) : List (List Equation) → Prop
  | [] => True
  | b :: bs => Equation.AllOver p b ∧ Equation.BlocksOver p bs

end

mutual

def Statement.Over (p : Expr → Prop) : Statement → Prop
  | .assign ls r _ => (∀ l ∈ ls, p l) ∧ p r
  | .ifThen cs bs _ => (∀ c ∈ cs, p c) ∧ Statement.BlocksOver p bs
  | .forLoop is ss _ => (∀ i ∈ is, p i.domain) ∧ Statement.AllOver p ss

def Statement.AllOver (p : Expr → Prop) : List Statement → Prop
  | [] => True
  | s :: ss => s.Over p ∧ Statement.AllOver p ss

def Statement.BlocksOver (p : Expr → Prop) : List (List Statement) → Prop
  | [] => True
  | b :: bs => Statement.AllOver p b ∧ Statement.BlocksOver p bs

end

def Constraint.Over (p : Expr → Prop) (c : Constraint) : Prop := p c.left ∧ p c.right

def ForIndex.Rel (R : Expr → Expr → Prop) (i j : ForIndex) : Prop :=
  j.name = i.name ∧ R i.domain j.domain

mutual

inductive Equation.Rel (R : Expr → Expr → Prop) : Equation → Equation → Prop
  | simple {l r l' r' c} : R l l' → R r r' → Equation.Rel R (.simple l r c) (.simple l' r' c)
  | ifThen {cs cs' bs bs' c} : List.Forall₂ R cs cs' → Equation.BlocksRel R bs bs' →
      Equation.Rel R (.ifThen cs bs c) (.ifThen cs' bs' c)
  | whenThen {cs cs' bs bs' c} : List.Forall₂ R cs cs' → Equation.BlocksRel R bs bs' →
      Equation.Rel R (.whenThen cs bs c) (.whenThen cs' bs' c)
  | forLoop {is is' es es' c} : List.Forall₂ (ForIndex.Rel R) is is' →
      Equation.AllRel R es es' → Equation.Rel R (.forLoop is es c) (.forLoop is' es' c)
  | connect {l r l' r' c s} : R (.ref l) (.ref l') → R (.ref r) (.ref r') →
      Equation.Rel R (.connect l r c s) (.connect l' r' c s)
  | call {n es es' c} : List.Forall₂ R es es' → Equation.Rel R (.call n es c) (.call n es' c)

inductive Equation.AllRel (R : Expr → Expr → Prop) : List Equation → List Equation → Prop
  | nil : Equation.AllRel R [] []
  | cons {e e' es es'} : Equation.Rel R e e' → Equation.AllRel R es es' →
      Equation.AllRel R (e :: es) (e' :: es')

inductive Equation.BlocksRel (R : Expr → Expr → Prop) :
    List (List Equation) → List (List Equation) → Prop
  | nil : Equation.BlocksRel R [] []
  | cons {b b' bs bs'} : Equation.AllRel R b b' → Equation.BlocksRel R bs bs' →
      Equation.BlocksRel R (b :: bs) (b' :: bs')

end

mutual

inductive Statement.Rel (R : Expr → Expr → Prop) : Statement → Statement → Prop
  | assign {ls r ls' r' c} : List.Forall₂ R ls ls' → R r r' →
      Statement.Rel R (.assign ls r c) (.assign ls' r' c)
  | ifThen {cs cs' bs bs' c} : List.Forall₂ R cs cs' → Statement.BlocksRel R bs bs' →
      Statement.Rel R (.ifThen cs bs c) (.ifThen cs' bs' c)
  | forLoop {is is' ss ss' c} : List.Forall₂ (ForIndex.Rel R) is is' →
      Statement.AllRel R ss ss' → Statement.Rel R (.forLoop is ss c) (.forLoop is' ss' c)

inductive Statement.AllRel (R : Expr → Expr → Prop) : List Statement → List Statement → Prop
  | nil : Statement.AllRel R [] []
  | cons {s s' ss ss'} : Statement.Rel R s s' → Statement.AllRel R ss ss' →
      Statement.AllRel R (s :: ss) (s' :: ss')

inductive Statement.BlocksRel (R : Expr → Expr → Prop) :
    List (List Statement) → List (List Statement) → Prop
  | nil : Statement.BlocksRel R [] []
  | cons {b b' bs bs'} : Statement.AllRel R b b' → Statement.BlocksRel R bs bs' →
      Statement.BlocksRel R (b :: bs) (b' :: bs')

end

def Constraint.Rel (R : Expr → Expr → Prop) (c d : Constraint) : Prop :=
  R c.left d.left ∧ R c.right d.right ∧ d.relation = c.relation ∧ d.comment = c.comment

structure Judgement (m : Type → Type) [Monad m] where
  gives : {α : Type} → m α → (α → Prop) → Prop
  pure : ∀ {α : Type} {a : α} {post : α → Prop}, post a → gives (pure a) post
  bind : ∀ {α β : Type} {x : m α} {f : α → m β} {mid : α → Prop} {post : β → Prop},
    gives x mid → (∀ a, mid a → gives (f a) post) → gives (x >>= f) post

variable {m : Type → Type} {α : Type} {r : α → α → Prop} {as bs : List α}

theorem Judgement.pureBind [Monad m] (J : Judgement m) {β : Type} {a : α} {f : α → m β}
    {post : β → Prop} (gives : J.gives (f a) post) : J.gives (Pure.pure a >>= f) post :=
  J.bind (J.pure rfl : J.gives (Pure.pure a) (· = a)) fun _ same => same ▸ gives

theorem Judgement.mono [Monad m] [LawfulMonad m] (J : Judgement m) {x : m α}
    {weak strong : α → Prop} (gives : J.gives x strong) (less : ∀ a, strong a → weak a) : J.gives x weak := by
  have weaker := J.bind gives fun a holds => J.pure (less a holds)
  rwa [bind_pure] at weaker

theorem Judgement.two [Monad m] (J : Judgement m) {β γ : Type} {x : m α} {y : m β} {k : α → β → γ} {first : α → Prop}
    {second : β → Prop} {post : γ → Prop} (before : J.gives x first) (after : J.gives y second)
    (both : ∀ a b, first a → second b → post (k a b)) : J.gives (do return k (← x) (← y)) post :=
  J.bind before fun a left => J.bind after fun b right => J.pure (both a b left right)

namespace Mapping

variable {m : Type → Type} [Monad m] (J : Judgement m) (f : Mapping m)
  {p : Expr → Prop} {R : Expr → Expr → Prop}

section Parts

variable (expr : ∀ e, p e → J.gives (f.expr e) (R e))

include expr

theorem exprs_gives (es : List Expr) (each : ∀ e ∈ es, p e) : J.gives (f.exprs es) (List.Forall₂ R es) := by
  induction es with
  | nil => exact J.pure .nil
  | cons e es ih =>
    rw [List.forall_mem_cons] at each
    exact J.two (expr e each.1) (ih each.2) fun _ _ => .cons

theorem rows_gives (rows : List (List Expr)) (each : ∀ e ∈ rows.flatten, p e) :
    J.gives (f.rows rows) (List.Forall₂ (List.Forall₂ R) rows) := by
  induction rows with
  | nil => exact J.pure .nil
  | cons es rest ih =>
    rw [List.flatten_cons, List.forall_mem_append] at each
    exact J.two (f.exprs_gives J expr es each.1) (ih each.2) fun _ _ => .cons

theorem indices_gives (is : List ForIndex) (each : ∀ i ∈ is, p i.domain) :
    J.gives (f.indices is) (List.Forall₂ (ForIndex.Rel R) is) := by
  induction is with
  | nil => exact J.pure .nil
  | cons i is ih =>
    rw [List.forall_mem_cons] at each
    exact J.two (expr i.domain each.1) (ih each.2) fun _ _ first => .cons ⟨rfl, first⟩

end Parts

section Equations

variable (expr : ∀ e, p e → J.gives (f.expr e) (R e))
  (ref : ∀ r, p (.ref r) → J.gives (f.ref r) fun r' => R (.ref r) (.ref r'))

include expr ref

mutual

theorem equation_gives (e : Equation) (each : e.Over p) : J.gives (f.equation e) (e.Rel R) := by
  match e with
  | .simple l r c => exact J.two (expr l each.1) (expr r each.2) fun _ _ => .simple
  | .ifThen cs bs c =>
    exact J.two (f.exprs_gives J expr cs each.1) (equationBlocks_gives bs each.2) fun _ _ => .ifThen
  | .whenThen cs bs c =>
    exact J.two (f.exprs_gives J expr cs each.1) (equationBlocks_gives bs each.2) fun _ _ => .whenThen
  | .forLoop is es c =>
    exact J.two (f.indices_gives J expr is each.1) (equations_gives es each.2) fun _ _ => .forLoop
  | .connect l r c s => exact J.two (ref l each.1) (ref r each.2) fun _ _ => .connect
  | .call n es c =>
    exact J.bind (f.exprs_gives J expr es each) fun es' arguments => J.pure (.call arguments)

theorem equations_gives (es : List Equation) (each : Equation.AllOver p es) :
    J.gives (f.equations es) (Equation.AllRel R es) := by
  match es with
  | [] => exact J.pure .nil
  | e :: es => exact J.two (equation_gives e each.1) (equations_gives es each.2) fun _ _ => .cons

theorem equationBlocks_gives (bs : List (List Equation)) (each : Equation.BlocksOver p bs) :
    J.gives (f.equationBlocks bs) (Equation.BlocksRel R bs) := by
  match bs with
  | [] => exact J.pure .nil
  | b :: bs =>
    exact J.two (equations_gives b each.1) (equationBlocks_gives bs each.2) fun _ _ => .cons

end

end Equations

section Statements

variable (expr : ∀ e, p e → J.gives (f.expr e) (R e))

include expr

mutual

theorem statement_gives (s : Statement) (each : s.Over p) : J.gives (f.statement s) (s.Rel R) := by
  match s with
  | .assign ls r c => exact J.two (f.exprs_gives J expr ls each.1) (expr r each.2) fun _ _ => .assign
  | .ifThen cs bs c =>
    exact J.two (f.exprs_gives J expr cs each.1) (statementBlocks_gives bs each.2) fun _ _ => .ifThen
  | .forLoop is ss c =>
    exact J.two (f.indices_gives J expr is each.1) (statements_gives ss each.2) fun _ _ => .forLoop

theorem statements_gives (ss : List Statement) (each : Statement.AllOver p ss) :
    J.gives (f.statements ss) (Statement.AllRel R ss) := by
  match ss with
  | [] => exact J.pure .nil
  | s :: ss => exact J.two (statement_gives s each.1) (statements_gives ss each.2) fun _ _ => .cons

theorem statementBlocks_gives (bs : List (List Statement)) (each : Statement.BlocksOver p bs) :
    J.gives (f.statementBlocks bs) (Statement.BlocksRel R bs) := by
  match bs with
  | [] => exact J.pure .nil
  | b :: bs =>
    exact J.two (statements_gives b each.1) (statementBlocks_gives bs each.2) fun _ _ => .cons

end

theorem constraint_gives (c : Constraint) (each : c.Over p) : J.gives (f.constraint c) (c.Rel R) :=
  J.two (expr c.left each.1) (expr c.right each.2) fun _ _ left right => ⟨left, right, rfl, rfl⟩

end Statements

end Mapping

section Any

mutual

theorem Equation.over_any (e : Equation) : e.Over fun _ => True := by
  match e with
  | .simple _ _ _ | .connect _ _ _ _ => exact ⟨trivial, trivial⟩
  | .ifThen _ bs _ | .whenThen _ bs _ => exact ⟨fun _ _ => trivial, Equation.blocksOver_any bs⟩
  | .forLoop _ es _ => exact ⟨fun _ _ => trivial, Equation.allOver_any es⟩
  | .call _ _ _ => exact fun _ _ => trivial

theorem Equation.allOver_any (es : List Equation) : Equation.AllOver (fun _ => True) es := by
  match es with
  | [] => trivial
  | e :: es => exact ⟨Equation.over_any e, Equation.allOver_any es⟩

theorem Equation.blocksOver_any (bs : List (List Equation)) : Equation.BlocksOver (fun _ => True) bs := by
  match bs with
  | [] => trivial
  | b :: bs => exact ⟨Equation.allOver_any b, Equation.blocksOver_any bs⟩

end

mutual

theorem Statement.over_any (s : Statement) : s.Over fun _ => True := by
  match s with
  | .assign _ _ _ => exact ⟨fun _ _ => trivial, trivial⟩
  | .ifThen _ bs _ => exact ⟨fun _ _ => trivial, Statement.blocksOver_any bs⟩
  | .forLoop _ ss _ => exact ⟨fun _ _ => trivial, Statement.allOver_any ss⟩

theorem Statement.allOver_any (ss : List Statement) : Statement.AllOver (fun _ => True) ss := by
  match ss with
  | [] => trivial
  | s :: ss => exact ⟨Statement.over_any s, Statement.allOver_any ss⟩

theorem Statement.blocksOver_any (bs : List (List Statement)) : Statement.BlocksOver (fun _ => True) bs := by
  match bs with
  | [] => trivial
  | b :: bs => exact ⟨Statement.allOver_any b, Statement.blocksOver_any bs⟩

end

end Any

theorem forall_of_forall₂ {t : α → Prop} (gains : ∀ a b, r a b → t b) (all : List.Forall₂ r as bs) : ∀ b ∈ bs, t b := by
  induction all with
  | nil => simp
  | cons first _ ih =>
    intro b member
    obtain rfl | later := List.mem_cons.1 member
    · exact gains _ _ first
    · exact ih b later

theorem eq_of_forall₂ (same : ∀ a b, r a b → b = a) (all : List.Forall₂ r as bs) : bs = as := by
  induction all with
  | nil => rfl
  | cons first _ ih => rw [same _ _ first, ih]

section Same

variable {R : Expr → Expr → Prop} (same : ∀ e e', R e e' → e' = e)

include same

theorem ForIndex.Rel.eq {i j : ForIndex} (related : i.Rel R j) : j = i := by
  obtain ⟨name, domain⟩ := i
  obtain ⟨_, _⟩ := j
  obtain ⟨sameName, sameDomain⟩ := related
  exact congr (congrArg ForIndex.mk sameName) (same _ _ sameDomain)

mutual

theorem Equation.Rel.eq {e e' : Equation} (related : e.Rel R e') : e' = e := by
  match related with
  | .simple left right => rw [same _ _ left, same _ _ right]
  | .ifThen conditions blocks | .whenThen conditions blocks =>
    rw [eq_of_forall₂ same conditions, Equation.BlocksRel.eq blocks]
  | .forLoop domains body =>
    rw [eq_of_forall₂ (fun _ _ => ForIndex.Rel.eq same) domains, Equation.AllRel.eq body]
  | .connect left right =>
    rw [Expr.ref.inj (same _ _ left), Expr.ref.inj (same _ _ right)]
  | .call arguments => rw [eq_of_forall₂ same arguments]

theorem Equation.AllRel.eq {es es' : List Equation} (related : Equation.AllRel R es es') : es' = es := by
  match related with
  | .nil => rfl
  | .cons first others => rw [Equation.Rel.eq first, Equation.AllRel.eq others]

theorem Equation.BlocksRel.eq {bs bs' : List (List Equation)} (related : Equation.BlocksRel R bs bs') : bs' = bs := by
  match related with
  | .nil => rfl
  | .cons first others => rw [Equation.AllRel.eq first, Equation.BlocksRel.eq others]

end

mutual

theorem Statement.Rel.eq {s s' : Statement} (related : s.Rel R s') : s' = s := by
  match related with
  | .assign left right => rw [eq_of_forall₂ same left, same _ _ right]
  | .ifThen conditions blocks => rw [eq_of_forall₂ same conditions, Statement.BlocksRel.eq blocks]
  | .forLoop domains body =>
    rw [eq_of_forall₂ (fun _ _ => ForIndex.Rel.eq same) domains, Statement.AllRel.eq body]

theorem Statement.AllRel.eq {ss ss' : List Statement} (related : Statement.AllRel R ss ss') : ss' = ss := by
  match related with
  | .nil => rfl
  | .cons first others => rw [Statement.Rel.eq first, Statement.AllRel.eq others]

theorem Statement.BlocksRel.eq {bs bs' : List (List Statement)}
    (related : Statement.BlocksRel R bs bs') : bs' = bs := by
  match related with
  | .nil => rfl
  | .cons first others => rw [Statement.AllRel.eq first, Statement.BlocksRel.eq others]

end

theorem Constraint.Rel.eq {c d : Constraint} (related : c.Rel R d) : d = c := by
  obtain ⟨left, right, relation, comment⟩ := c
  obtain ⟨_, _, _, _⟩ := d
  obtain ⟨first, second, third, fourth⟩ := related
  simp only [Constraint.mk.injEq]
  exact ⟨same _ _ first, same _ _ second, third, fourth⟩

end Same

namespace Judgement

def still (m : Type → Type) [Monad m] [LawfulMonad m] : Judgement m where
  gives x post := ∃ a, x = Pure.pure a ∧ post a
  pure holds := ⟨_, rfl, holds⟩
  bind first second := by
    obtain ⟨a, rfl, holds⟩ := first
    obtain ⟨b, result, after⟩ := second a holds
    exact ⟨b, by rw [pure_bind, result], after⟩

def collects (p : Expr → Prop) : Judgement (StateM (Array Expr)) where
  gives x post := ∀ found : Array Expr, (∀ e ∈ found, p e) →
    post (x.run found).1 ∧ ∀ e ∈ (x.run found).2, p e
  pure holds := fun _ before => ⟨holds, before⟩
  bind first second := fun found before =>
    second _ (first found before).1 _ (first found before).2

end Judgement

section Pure

variable {m : Type → Type} [Monad m] [LawfulMonad m] (f : Mapping m) {p : Expr → Prop}
  (expr : ∀ e, p e → f.expr e = pure e) (ref : ∀ r, p (.ref r) → f.ref r = pure r)

include expr

theorem Statement.Over.eq_pure (s : Statement) (each : s.Over p) : f.statement s = pure s := by
  obtain ⟨s', result, related⟩ := f.statement_gives (.still m) (R := fun e e' => e' = e)
    (fun e holds => ⟨e, expr e holds, rfl⟩) s each
  rw [result, related.eq fun _ _ => id]

theorem Constraint.Over.eq_pure (c : Constraint) (each : c.Over p) : f.constraint c = pure c := by
  obtain ⟨c', result, related⟩ := f.constraint_gives (.still m) (R := fun e e' => e' = e)
    (fun e holds => ⟨e, expr e holds, rfl⟩) c each
  rw [result, related.eq fun _ _ => id]

include ref

theorem Equation.Over.eq_pure (e : Equation) (each : e.Over p) : f.equation e = pure e := by
  obtain ⟨e', result, related⟩ := f.equation_gives (.still m) (R := fun e e' => e' = e)
    (fun e holds => ⟨e, expr e holds, rfl⟩) (fun r holds => ⟨r, ref r holds, rfl⟩) e each
  rw [result, related.eq fun _ _ => id]

end Pure

section Collect

variable {p : Expr → Prop}

theorem collecting_expr (e : Expr) (holds : p e) :
    (Judgement.collects p).gives (Expr.collecting.expr e) fun _ => True := by
  intro found before
  refine ⟨trivial, ?_⟩
  intro e' member
  obtain old | rfl := Array.mem_push.1 member
  · exact before e' old
  · exact holds

theorem collecting_ref (r : ComponentRef) (holds : p (.ref r)) :
    (Judgement.collects p).gives (Expr.collecting.ref r) fun _ => True :=
  collecting_expr (.ref r) holds

theorem Equation.Over.exprs (e : Equation) (each : e.Over p) : ∀ x ∈ e.exprs, p x := by
  intro x member
  have all := Expr.collecting.equation_gives (.collects p) (R := fun _ _ => True)
    collecting_expr collecting_ref e each #[] (by simp)
  exact all.2 x (Array.mem_toList_iff.1 member)

theorem Statement.Over.exprs (s : Statement) (each : s.Over p) : ∀ x ∈ s.exprs, p x := by
  intro x member
  have all := Expr.collecting.statement_gives (.collects p) (R := fun _ _ => True) collecting_expr s each #[] (by simp)
  exact all.2 x (Array.mem_toList_iff.1 member)

end Collect

end Modelica
