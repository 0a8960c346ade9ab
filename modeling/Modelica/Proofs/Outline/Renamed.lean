import Modelica.Proofs.Expr.Light
import Modelica.Proofs.Outline.Alike

set_option autoImplicit false

namespace Modelica

open Outline
open List (forall_mem_append map_cons)

structure Staging (m : Type → Type) [Monad m] (Stage : Type) where
  gives : {α : Type} → m α → (Stage → α → Prop) → Prop
  pure : ∀ {α : Type} {a : α} {post : Stage → α → Prop}, (∀ i, post i a) → gives (pure a) post
  bind : ∀ {α β : Type} {x : m α} {f : α → m β} {mid : Stage → α → Prop}
    {post : Stage → β → Prop}, gives x mid →
      (∀ a, gives (f a) fun i b => mid i a → post i b) → gives (x >>= f) post

theorem Staging.mono {m : Type → Type} [Monad m] [LawfulMonad m] {Stage : Type}
    (S : Staging m Stage) {α : Type} {x : m α} {strong weak : Stage → α → Prop}
    (gives : S.gives x strong) (less : ∀ i a, strong i a → weak i a) : S.gives x weak := by
  have weaker : S.gives (x >>= Pure.pure) weak := S.bind gives fun a => S.pure fun i holds => less i a holds
  rwa [bind_pure] at weaker

theorem Staging.two {m : Type → Type} [Monad m] {Stage : Type} (S : Staging m Stage) {α β γ : Type} {x : m α} {y : m β}
    {k : α → β → γ} {first : Stage → α → Prop} {second : Stage → β → Prop} {post : Stage → γ → Prop}
    (before : S.gives x first) (after : S.gives y second)
    (both : ∀ i a b, first i a → second i b → post i (k a b)) : S.gives (do return k (← x) (← y)) post :=
  S.bind before fun a => S.bind after fun b => S.pure fun i right left => both i a b left right

def Judgement.staging {m : Type → Type} [Monad m] [LawfulMonad m] (J : Judgement m) :
    Staging m Unit where
  gives x post := J.gives x (post ())
  pure holds := J.pure (holds ())
  bind first second := J.bind first fun a here => J.mono (second a) fun _ holds => holds here

-- of mutual statements only one or two use an assumption directly
set_option linter.unusedSectionVars false

section Rename

variable {m : Type → Type} [Monad m] {Stage : Type} (S : Staging m Stage) (f : Renaming m)
  {inside : Entry → Prop} {R : Stage → Entry → Entry → Prop}
  (symbol : ∀ s, inside (.symbol s) → S.gives (f.symbol s) fun i t => R i (.symbol s) (.symbol t))
  (modification : ∀ n, inside (.modification n) →
    S.gives (f.modification n) fun i k => R i (.modification n) (.modification k))
  (keeps : ∀ r, f.call r = pure (.function r))

include symbol modification keeps

mutual

theorem Expr.rename_alike (e : Expr) (all : ∀ x ∈ e.outline.entries, inside x) :
    S.gives (e.rename f) fun i e' => Alike (R i) e.outline e'.outline := by
  match e with
  | .literal v =>
    refine S.pure fun i => ?_
    cases v <;> simp [Expr.outline, Literal.outline, Alike]
  | .ref r => exact S.bind (ComponentRef.rename_alike r all) fun r' => S.pure fun _ alike => alike
  | .apply (.named o) es =>
    refine S.bind (Expr.renameAll_alike es fun x member => all x ?_) fun es' => S.pure fun i alike => ?_
    · simpa [Expr.outline, entries, fieldEntries, Operator.outline] using member
    · simpa [Expr.outline, Operator.outline] using alike
  | .apply (.function r) es =>
    simp only [Expr.outline, entries, fieldEntries, Operator.outline, forall_mem_append] at all
    refine S.bind (ComponentRef.rename_alike r all.1) fun r' => S.bind (Expr.renameAll_alike es all.2.1) fun es' => ?_
    rw [keeps]
    have called : S.gives (pure (Operator.function r')) fun _ o => o = .function r' := S.pure fun _ => rfl
    refine S.bind called fun o => S.pure ?_
    rintro i rfl others first
    simp [Expr.outline, Operator.outline, first, others]
  | .conditional cs es =>
    simp only [Expr.outline, entries, fieldEntries, forall_mem_append] at all
    refine S.two (Expr.renameAll_alike cs all.1) (Expr.renameAll_alike es all.2.1) fun i _ _ first others => ?_
    simp [Expr.outline, first, others]
  | .array es =>
    refine S.bind (Expr.renameAll_alike es fun x member => all x ?_) fun es' => S.pure fun i alike => ?_
    · simp [Expr.outline, entries, fieldEntries, member]
    · simp [Expr.outline, alike]
  | .slice a b c =>
    simp only [Expr.outline, entries, fieldEntries, forall_mem_append] at all
    refine S.bind (Expr.rename_alike a all.1) fun a' => S.bind (Expr.rename_alike b all.2.1) fun b' =>
      S.bind (Expr.rename_alike c all.2.2.1) fun c' => S.pure fun i third second first => ?_
    simp [Expr.outline, first, second, third]
  | .tuple es =>
    refine S.bind (Expr.renameAll_alike es fun x member => all x ?_) fun es' => S.pure fun i alike => ?_
    · simp [Expr.outline, entries, member]
    · simp [Expr.outline, alike]
  | .component s =>
    refine S.bind (symbol s (all _ ?_)) fun t => S.pure fun i related => ?_
    · simp [Expr.outline, entries]
    · simp [Expr.outline, related]
  | .modification n =>
    refine S.bind (modification n (all _ ?_)) fun k => S.pure fun i related => ?_
    · simp [Expr.outline, entries]
    · simp [Expr.outline, related]

theorem Expr.renameAll_alike (es : List Expr) (all : ∀ x ∈ itemEntries (Expr.outlines es), inside x) :
    S.gives (Expr.renameAll f es) fun i es' => ItemsAlike (R i) (Expr.outlines es) (Expr.outlines es') := by
  match es with
  | [] => exact S.pure fun i => itemsAlike_nil (R i)
  | e :: es =>
    simp only [Expr.outlines, itemEntries, forall_mem_append] at all
    refine S.two (Expr.rename_alike e all.1) (Expr.renameAll_alike es all.2) fun i _ _ first others => ?_
    simp [Expr.outlines, first, others]

theorem ComponentRef.rename_alike (r : ComponentRef) (all : ∀ x ∈ r.outline.entries, inside x) :
    S.gives (r.rename f) fun i r' => Alike (R i) r.outline r'.outline := by
  match r with
  | .mk name groups none =>
    refine S.bind (Expr.renameGroups_alike groups fun x member => all x ?_) fun groups' => S.pure fun i alike => ?_
    · simp [ComponentRef.outline, entries, fieldEntries, member]
    · simpa [ComponentRef.outline] using alike
  | .mk name groups (some c) =>
    simp only [ComponentRef.outline, entries, fieldEntries, itemEntries, forall_mem_append] at all
    refine S.two (Expr.renameGroups_alike groups all.2.1) (ComponentRef.rename_alike c all.2.2.1.1)
      fun i _ _ first others => ?_
    rw [ComponentRef.outline, ComponentRef.outline]
    simp [first, others]

theorem Expr.renameGroups_alike (groups : List (Option (List Expr)))
    (all : ∀ x ∈ itemEntries (Expr.groupOutlines groups), inside x) :
    S.gives (Expr.renameGroups f groups) fun i groups' =>
      ItemsAlike (R i) (Expr.groupOutlines groups) (Expr.groupOutlines groups') := by
  match groups with
  | [] => exact S.pure fun i => itemsAlike_nil (R i)
  | none :: rest =>
    refine S.bind (Expr.renameGroups_alike rest fun x member => all x ?_) fun rest' => S.pure fun i others => ?_
    · simp [Expr.groupOutlines, itemEntries, member]
    · simpa [Expr.groupOutlines] using others
  | some es :: rest =>
    simp only [Expr.groupOutlines, itemEntries, entries, forall_mem_append] at all
    refine S.two (Expr.renameAll_alike es all.1) (Expr.renameGroups_alike rest all.2) fun i _ _ first others => ?_
    simp [Expr.groupOutlines, first, others]

end

end Rename

def passing : Judgement Option where
  gives x post := ∀ a ∈ x, post a
  pure holds := by
    rintro _ ⟨⟩
    exact holds
  bind first second := by
    intro b member
    obtain ⟨a, here, there⟩ := Option.bind_eq_some_iff.1 member
    exact second a (first a here) b there

theorem ComponentRef.alike_of_bare (Q : Entry → Entry → Prop) (r : ComponentRef) (bare : r.bare = true) :
    Alike Q r.outline r.outline :=
  -- a renaming that fails at every entry gives the reference itself
  r.rename_alike passing.staging ⟨fun _ => none, fun _ => none, fun r => some (.function r)⟩
    (R := fun _ => Q) (fun _ _ _ found => absurd found (Option.not_mem_none _))
    (fun _ _ _ found => absurd found (Option.not_mem_none _)) (fun _ => rfl) (fun _ _ => trivial) r
    (r.rename_of_bare _ (fun _ => rfl) bare)

theorem conditionOutlines_alike {cs cs' : List Expr} (blocks : Nat) {Q : Entry → Entry → Prop}
    (alike : cs'.length = cs.length ∧ ItemsAlike Q (Expr.outlines cs) (Expr.outlines cs')) :
    Alike Q (conditionOutlines cs blocks) (conditionOutlines cs' blocks) := by
  refine (alike_list Q _ _).2 (itemsAlike_append Q alike.2 ?_)
  rw [alike.1]
  split <;> simp

theorem held_of_conditions {cs : List Expr} (blocks : Nat) {inside : Entry → Prop}
    (all : ∀ x ∈ (conditionOutlines cs blocks).entries, inside x) : ∀ x ∈ itemEntries (Expr.outlines cs), inside x := by
  intro x member
  refine all x ?_
  rw [conditionOutlines, entries]
  generalize (if cs.length + 1 = blocks then [Outline.bool true] else []) = rest
  generalize Expr.outlines cs = os at member ⊢
  induction os with
  | nil => simp [itemEntries] at member
  | cons o os ih =>
    rw [List.cons_append, itemEntries]
    rw [itemEntries, List.mem_append] at member
    exact List.mem_append.2 (member.imp_right ih)

namespace Mapping

variable {m : Type → Type} [Monad m] {Stage : Type} (S : Staging m Stage) (f : Mapping m)
  {inside : Entry → Prop} {R : Stage → Entry → Entry → Prop}
  (expr : ∀ e : Expr, (∀ x ∈ e.outline.entries, inside x) →
    S.gives (f.expr e) fun i e' => Alike (R i) e.outline e'.outline)

section Lists

include expr

theorem exprs_alike (es : List Expr) (all : ∀ x ∈ itemEntries (Expr.outlines es), inside x) :
    S.gives (f.exprs es) fun i es' => es'.length = es.length ∧
      ItemsAlike (R i) (Expr.outlines es) (Expr.outlines es') := by
  induction es with
  | nil => exact S.pure fun i => ⟨rfl, itemsAlike_nil (R i)⟩
  | cons e es ih =>
    simp only [Expr.outlines, itemEntries, forall_mem_append] at all
    refine S.two (expr e all.1) (ih all.2) fun i _ _ first others => ?_
    simp [Expr.outlines, first, others]

theorem rows_alike (rows : List (List Expr)) (all : ∀ x ∈ (dimensionOutline rows).entries, inside x) :
    S.gives (f.rows rows) fun i rows' => Alike (R i) (dimensionOutline rows) (dimensionOutline rows') := by
  induction rows with
  | nil => exact S.pure fun i => (alike_list (R i) _ _).2 (itemsAlike_nil (R i))
  | cons es rows ih =>
    simp only [dimensionOutline, map_cons, entries, itemEntries, forall_mem_append] at all ih
    refine S.two (f.exprs_alike S expr es all.1) (ih all.2) fun i _ _ first others => ?_
    simp only [alike_list] at others
    simp [dimensionOutline, first.2, others]

theorem indices_alike (is : List ForIndex) (all : ∀ x ∈ itemEntries (is.map ForIndex.outline), inside x) :
    S.gives (f.indices is) fun i is' => ItemsAlike (R i) (is.map ForIndex.outline) (is'.map ForIndex.outline) := by
  induction is with
  | nil => exact S.pure fun i => itemsAlike_nil (R i)
  | cons i is ih =>
    simp only [map_cons, itemEntries, ForIndex.outline, entries, fieldEntries, forall_mem_append] at all
    refine S.two (expr i.domain all.1.2.1) (ih all.2) fun i _ _ first others => ?_
    simp [ForIndex.outline, first, others]

end Lists

section Equations

variable (ref : ∀ r : ComponentRef, (∀ x ∈ r.outline.entries, inside x) →
  S.gives (f.ref r) fun i r' => Alike (R i) r.outline r'.outline)

include expr ref

mutual

theorem equation_alike (e : Equation) (all : ∀ x ∈ e.outline.entries, inside x) :
    S.gives (f.equation e) fun i e' => Alike (R i) e.outline e'.outline := by
  match e with
  | .simple l r c =>
    simp only [Equation.outline, entries, fieldEntries, forall_mem_append] at all
    refine S.two (expr l all.1) (expr r all.2.1) fun i _ _ left right => ?_
    simp [Equation.outline, left, right]
  | .ifThen cs bs c | .whenThen cs bs c =>
    simp only [Equation.outline, entries, fieldEntries, forall_mem_append] at all
    refine S.two (f.exprs_alike S expr cs (held_of_conditions bs.length all.1)) (equationBlocks_alike bs all.2.1)
      fun i _ _ conditions blocks => ?_
    rw [Equation.outline, Equation.outline, blocks.1]
    simp [conditionOutlines_alike bs.length conditions, blocks.2]
  | .forLoop is es c =>
    simp only [Equation.outline, entries, fieldEntries, forall_mem_append] at all
    refine S.two (f.indices_alike S expr is all.1) (equations_alike es all.2.1) fun i _ _ domains body => ?_
    simp [Equation.outline, domains, body]
  | .connect l r c sides =>
    simp only [Equation.outline, entries, List.cons_append, fieldEntries, forall_mem_append] at all
    refine S.two (ref l all.1) (ref r all.2.1) fun i _ _ left right => ?_
    cases sides <;> simp [Equation.outline, left, right]
  | .call n es c =>
    simp only [Equation.outline, entries, fieldEntries, forall_mem_append] at all
    refine S.bind (f.exprs_alike S expr es all.2.1) fun es' => S.pure fun i arguments => ?_
    simp [Equation.outline, arguments.2]

theorem equations_alike (es : List Equation) (all : ∀ x ∈ itemEntries (Equation.outlines es), inside x) :
    S.gives (f.equations es) fun i es' => ItemsAlike (R i) (Equation.outlines es) (Equation.outlines es') := by
  match es with
  | [] => exact S.pure fun i => itemsAlike_nil (R i)
  | e :: es =>
    simp only [Equation.outlines, itemEntries, forall_mem_append] at all
    refine S.two (equation_alike e all.1) (equations_alike es all.2) fun i _ _ first others => ?_
    simp [Equation.outlines, first, others]

theorem equationBlocks_alike (bs : List (List Equation))
    (all : ∀ x ∈ itemEntries (Equation.blockOutlines bs), inside x) :
    S.gives (f.equationBlocks bs) fun i bs' => bs'.length = bs.length ∧
      ItemsAlike (R i) (Equation.blockOutlines bs) (Equation.blockOutlines bs') := by
  match bs with
  | [] => exact S.pure fun i => ⟨rfl, itemsAlike_nil (R i)⟩
  | b :: bs =>
    simp only [Equation.blockOutlines, itemEntries, entries, forall_mem_append] at all
    refine S.two (equations_alike b all.1) (equationBlocks_alike bs all.2) fun i _ _ first others => ?_
    simp [Equation.blockOutlines, first, others]

end

end Equations

section Statements

include expr

mutual

theorem statement_alike (s : Statement) (all : ∀ x ∈ s.outline.entries, inside x) :
    S.gives (f.statement s) fun i s' => Alike (R i) s.outline s'.outline := by
  match s with
  | .assign ls r c =>
    simp only [Statement.outline, entries, fieldEntries, forall_mem_append] at all
    refine S.two (f.exprs_alike S expr ls all.1) (expr r all.2.1) fun i _ _ left right => ?_
    simp [Statement.outline, left.2, right]
  | .ifThen cs bs c =>
    simp only [Statement.outline, entries, fieldEntries, forall_mem_append] at all
    refine S.two (f.exprs_alike S expr cs (held_of_conditions bs.length all.1)) (statementBlocks_alike bs all.2.1)
      fun i _ _ conditions blocks => ?_
    rw [Statement.outline, Statement.outline, blocks.1]
    simp [conditionOutlines_alike bs.length conditions, blocks.2]
  | .forLoop is ss c =>
    simp only [Statement.outline, entries, fieldEntries, forall_mem_append] at all
    refine S.two (f.indices_alike S expr is all.1) (statements_alike ss all.2.1) fun i _ _ domains body => ?_
    simp [Statement.outline, domains, body]

theorem statements_alike (ss : List Statement) (all : ∀ x ∈ itemEntries (Statement.outlines ss), inside x) :
    S.gives (f.statements ss) fun i ss' => ItemsAlike (R i) (Statement.outlines ss) (Statement.outlines ss') := by
  match ss with
  | [] => exact S.pure fun i => itemsAlike_nil (R i)
  | s :: ss =>
    simp only [Statement.outlines, itemEntries, forall_mem_append] at all
    refine S.two (statement_alike s all.1) (statements_alike ss all.2) fun i _ _ first others => ?_
    simp [Statement.outlines, first, others]

theorem statementBlocks_alike (bs : List (List Statement))
    (all : ∀ x ∈ itemEntries (Statement.blockOutlines bs), inside x) :
    S.gives (f.statementBlocks bs) fun i bs' => bs'.length = bs.length ∧
      ItemsAlike (R i) (Statement.blockOutlines bs) (Statement.blockOutlines bs') := by
  match bs with
  | [] => exact S.pure fun i => ⟨rfl, itemsAlike_nil (R i)⟩
  | b :: bs =>
    simp only [Statement.blockOutlines, itemEntries, entries, forall_mem_append] at all
    refine S.two (statements_alike b all.1) (statementBlocks_alike bs all.2) fun i _ _ first others => ?_
    simp [Statement.blockOutlines, first, others]

end

theorem constraints_alike (cs : List Constraint) (all : ∀ x ∈ itemEntries (cs.map Constraint.outline), inside x) :
    S.gives (f.constraints cs) fun i cs' =>
      ItemsAlike (R i) (cs.map Constraint.outline) (cs'.map Constraint.outline) := by
  induction cs with
  | nil => exact S.pure fun i => itemsAlike_nil (R i)
  | cons c cs ih =>
    simp only [map_cons, itemEntries, Constraint.outline, entries, fieldEntries, forall_mem_append] at all
    have first : S.gives (f.constraint c) fun i c' => Alike (R i) c.outline c'.outline := by
      refine S.two (expr c.left all.1.1) (expr c.right all.1.2.1) fun i _ _ left right => ?_
      simp [Constraint.outline, left, right]
    refine S.bind first fun c' => S.bind (ih all.2) fun cs' => S.pure fun i others first => ?_
    simp [first, others]

end Statements

end Mapping

end Modelica
