import Modelica.Proofs.Library.Loading

set_option autoImplicit false

namespace Modelica

namespace Source

mutual

-- No component is declared in a modification.
def Modification.plain : Modification → Bool
  | .nested as _ => ModificationArgument.allPlain as
  | .assign _ => true

def ModificationArgument.plain : ModificationArgument → Bool
  | .modify _ none => true
  | .modify _ (some m) => m.plain
  | .redeclare e | .replaceable e none | .redeclareReplaceable e none => e.plain
  | .replaceable e (some as) | .redeclareReplaceable e (some as) => e.plain && ModificationArgument.allPlain as

def ModificationArgument.allPlain : List ModificationArgument → Bool
  | [] => true
  | a :: as => a.plain && ModificationArgument.allPlain as

def Redeclared.plain : Redeclared → Bool
  | .shortClass _ _ _ _ none c => c.plain
  | .shortClass _ _ _ _ (some as) c => ModificationArgument.allPlain as && c.plain
  | .shortEnumeration _ _ cs c => Comment.allPlain cs && c.plain
  | .component .. => false

def Comment.plain : Comment → Bool
  | .mk _ none => true
  | .mk _ (some as) => ModificationArgument.allPlain as

def Comment.allPlain : List Comment → Bool
  | [] => true
  | c :: cs => c.plain && Comment.allPlain cs

end

end Source

theorem Build.Ensures.of_eq {α : Type} {x : Build α} {lib next : Library} {a : α} {good : α → Library → Prop}
    {bad : Error → Library → Prop} (run : x lib = .ok a next) (holds : good a next) : x.Ensures lib good bad :=
  (ensures_of_eq run).2 holds

namespace Define

open Build Library

variable {α β γ : Type} {plain : Bool} {lib : Library}

-- What holds of the steps of reading and of any sequence of them. It may hold in a stronger form where no
-- component is declared.
structure Manner where
  holds : Bool → {α : Type} → Read α → Prop
  pure : ∀ {plain α} (a : α), holds plain (pure a)
  throw : ∀ {plain α} (e : Error), holds plain (throw e : Read α)
  bind : ∀ {plain α β} {x : Read α} {f : α → Read β}, holds plain x → (∀ a, holds plain (f a)) → holds plain (x >>= f)
  weaken : ∀ {α} {x : Read α}, holds true x → holds false x
  addModification : ∀ {plain} as, holds plain (lift (Build.addModification as))
  addArgument : ∀ {plain} v scope redeclare, holds plain (lift (Build.addArgument v scope redeclare))
  enterElementModification : ∀ {plain}, holds plain enterElementModification
  look : ∀ {α} {x : Read α}, (∀ r lib, ∃ a, x r lib = .ok (a, r) lib) → holds false x
  updateModification : ∀ m f, holds false (lift (Build.updateModification m f))
  updateSymbol : ∀ s f, (∀ d, (f d).visibility = d.visibility) → holds false (lift (Build.updateSymbol s f))
  updateClass : ∀ c f, (∀ d, ∃ imports symbols, f d = { d with imports := imports, symbols := symbols }) →
    holds false (lift (Build.updateClass c f))
  leaveSymbol : holds false (modify fun r => { r with target := .none } : Read Unit)
  inExtends : ∀ b, holds false (modify fun r => { r with inExtends := b } : Read Unit)
  enterClause : ∀ ts type, holds false (enterClause ts type)
  enterSymbol : holds false enterSymbol

section Execution

variable (r : Reading) {good : α × Reading → Library → Prop} {bad : Error → Library → Prop}

theorem ensures_read_bind (x : Read β) (f : β → Read α) : Build.Ensures ((x >>= f) r) lib good bad ↔
    Build.Ensures (x r) lib (fun p next => Build.Ensures (f p.1 p.2) next good bad) bad :=
  ensures_bind (x r) fun p => f p.1 p.2

theorem ensures_read_pure (a : α) : Build.Ensures ((pure a : Read α) r) lib good bad ↔ good (a, r) lib :=
  ensures_pure (a, r)

theorem ensures_read_modify {good : Unit × Reading → Library → Prop} (f : Reading → Reading) :
    Build.Ensures ((modify f : Read Unit) r) lib good bad ↔ good ((), f r) lib :=
  ensures_pure ((), f r)

theorem ensures_read_currentClass {good : ClassId × Reading → Library → Prop} :
    Build.Ensures (currentClass r) lib good bad ↔ good (r.classes.head?.getD ⟨0⟩, r) lib :=
  ensures_pure (r.classes.head?.getD ⟨0⟩, r)

theorem ensures_read_lift (x : Build α) : Build.Ensures (lift x r) lib good bad ↔
    x.Ensures lib (fun a next => good (a, r) next) bad := by
  rw [show lift x r = x >>= fun a => pure (a, r) from rfl, ensures_bind]
  simp only [ensures_pure]

end Execution

namespace Manner

variable {M : Manner} {x : Read α} {f : α → Read β}

theorem holds.any (first : M.holds plain x) : M.holds false x := by
  cases plain with
  | false => exact first
  | true => exact M.weaken first

theorem holds.left {other : Bool} (first : M.holds plain x) : M.holds (plain && other) x := by
  cases other with
  | false => rw [Bool.and_false]; exact first.any
  | true => rwa [Bool.and_true]

theorem holds.right {other : Bool} (first : M.holds plain x) : M.holds (other && plain) x :=
  Bool.and_comm .. ▸ first.left

section

variable (first : M.holds plain x)
include first

theorem holds.bind (second : ∀ a, M.holds plain (f a)) : M.holds plain (x >>= f) :=
  M.bind first second

theorem holds.map (f : α → β) : M.holds plain (f <$> x) := first.bind fun _ => M.pure _

theorem holds.ends {f : α → β} : M.holds plain (x >>= fun a => Pure.pure (f a)) :=
  first.bind fun _ => M.pure _

theorem holds.fails {e : α → Error} :
    M.holds plain (x >>= fun a => MonadExcept.throw (e a) : Read β) :=
  first.bind fun _ => M.throw _

end

variable (M)

theorem ofExcept (x : Except Error α) : M.holds plain (ofExcept x) := by
  cases x with
  | ok a => exact M.pure a
  | error e => exact M.throw e

variable {M}

theorem value {x : Except Error α} (rest : ∀ a, M.holds plain (f a)) : M.holds plain (Define.ofExcept x >>= f) :=
  (M.ofExcept x).bind rest

theorem seen {x : Read α} (rest : ∀ a, M.holds false (f a))
    (same : ∀ r lib, ∃ a, x r lib = .ok (a, r) lib := by exact fun _ _ => ⟨_, rfl⟩) : M.holds false (x >>= f) :=
  (M.look same).bind rest

theorem change (s : SymbolId) {f : Symbol → Symbol}
    (same : ∀ d, (f d).visibility = d.visibility := by exact fun _ => rfl) :
    M.holds false (lift (Build.updateSymbol s f)) := M.updateSymbol s f same

theorem declare (c : ClassId) {f : ClassDef → ClassDef}
    (same : ∀ d, ∃ imports symbols, f d = { d with imports := imports, symbols := symbols } := by
      exact fun _ => ⟨_, _, rfl⟩) : M.holds false (lift (Build.updateClass c f)) := M.updateClass c f same

theorem forEach (xs : List γ) {f : γ → β → Read (ForInStep β)} (each : ∀ x b, M.holds plain (f x b)) (b : β) :
    M.holds plain (forIn xs b f) := by
  induction xs generalizing b with
  | nil => exact M.pure b
  | cons x xs ih =>
    rw [List.forIn_cons]
    refine (each x b).bind fun s => ?_
    cases s with
    | done b => exact M.pure b
    | yield b => exact ih b

end Manner

open Manner

variable (M : Manner)

theorem enterDeclaration_holds (s : SymbolId) (name : String) : M.holds false (enterDeclaration s name) := by
  unfold enterDeclaration
  refine seen fun clause => (change s).bind fun _ => seen fun r => ?_
  split
  · exact M.pure _
  · refine seen fun c => seen fun d => ?_
    split
    · exact (M.throw _).bind fun _ => declare c
    · exact declare c

theorem exitSymbol_holds (s : SymbolId) (text : String) : M.holds false (exitSymbol s text) :=
  (change s).bind fun _ => M.leaveSymbol

theorem exitDeclaration_holds (own changes : Option (List Expr)) : M.holds false (exitDeclaration own changes) := by
  unfold exitDeclaration
  refine seen fun r => ?_
  split
  · split
    · exact M.throw _
    · exact M.pure _
  · exact M.pure _
  · next id _ =>
    obtain _ | dims := own
    on_goal 2 => refine (change id).bind fun _ => ?_
    all_goals
      refine (forEach _ (fun c _ => ?_) _).ends
      split
      · exact (change id).ends
      · refine (M.addArgument _ _ _).bind fun _ => seen fun d => ?_
        split
        · exact (M.addModification _).bind fun _ => (change id).ends
        · exact (M.updateModification _ _).ends

mutual

theorem modification_holds : ∀ m : Source.Modification, M.holds m.plain (modification m)
  | .nested as value => by
    rw [modification, Source.Modification.plain]
    refine (classModification_holds as).bind fun m => ?_
    cases value with
    | none => exact M.pure _
    | some e => exact (M.ofExcept _).ends
  | .assign e => by
    rw [modification]
    exact (M.ofExcept _).ends

theorem classModification_holds : ∀ as : List Source.ModificationArgument,
    M.holds (Source.ModificationArgument.allPlain as) (classModification as)
  | as => by
    rw [classModification]
    exact (modificationArguments_holds as).bind fun _ => M.addModification _

theorem modificationArguments_holds : ∀ as : List Source.ModificationArgument,
    M.holds (Source.ModificationArgument.allPlain as) (modificationArguments as)
  | [] => by
    rw [modificationArguments]
    exact M.pure _
  | a :: as => by
    rw [modificationArguments, Source.ModificationArgument.allPlain]
    exact (modificationArgument_holds a).left.bind fun _ => (modificationArguments_holds as).right.ends

theorem modificationArgument_holds : ∀ a : Source.ModificationArgument, M.holds a.plain (modificationArgument a)
  | .modify component change => by
    rw [modificationArgument]
    refine M.enterElementModification.bind fun _ => value fun _ => ?_
    cases change with
    | none => exact M.addArgument _ _ _
    | some m => exact (modification_holds m).bind fun _ => M.addArgument _ _ _
  | .replaceable e none | .redeclare e => by
    rw [modificationArgument]
    exact (redeclared_holds e).bind fun _ => M.addArgument _ _ _
  | .replaceable e (some as) => by
    rw [modificationArgument]
    exact (redeclared_holds e).left.bind fun _ => (modificationArguments_holds as).right.bind fun _ => M.addArgument _ _ _
  | .redeclareReplaceable e none => by
    rw [modificationArgument]
    exact (redeclared_holds e).fails
  | .redeclareReplaceable e (some as) => by
    rw [modificationArgument]
    exact (redeclared_holds e).left.bind fun _ => (modificationArguments_holds as).right.fails

theorem redeclared_holds : ∀ e : Source.Redeclared, M.holds e.plain (redeclared e)
  | .shortClass type name base dims change note => by
    rw [redeclared]
    refine value fun base => ?_
    obtain _ | items := dims
    on_goal 2 => refine value fun _ => ?_
    all_goals
      cases change with
      | none => exact (comment_holds note).ends
      | some as => exact (modificationArguments_holds as).left.bind fun _ => (comment_holds note).right.ends
  | .shortEnumeration _ _ cs note => by
    rw [redeclared]
    exact (comments_holds cs).left.bind fun _ => (comment_holds note).right.fails
  | .component prefixes type name dims change note => by
    rw [redeclared]
    refine (M.enterClause _ _).bind fun clause => M.enterSymbol.bind fun id =>
      (enterDeclaration_holds M id name).bind fun _ => ?_
    -- Without subscripts or a modification a pure step stands in its place.
    obtain _ | items := dims
    on_goal 1 => refine (M.pure none).bind fun own => ?_
    on_goal 2 => refine ((M.ofExcept _).map some).bind fun own => ?_
    all_goals
      obtain _ | m := change
      on_goal 1 => refine (M.pure none).bind fun changes => ?_
      on_goal 2 => refine ((modification_holds m).any.map some).bind fun changes => ?_
      all_goals
        refine (exitDeclaration_holds M own changes).bind fun _ => (comment_holds note).any.bind fun text =>
          (exitSymbol_holds M id text).bind fun _ => seen fun r => ?_
        split
        · exact M.pure _
        · exact M.throw _

theorem comment_holds : ∀ c : Source.Comment, M.holds c.plain (comment c)
  | .mk text none => by
    rw [comment]
    exact M.pure _
  | .mk text (some as) => by
    rw [comment]
    exact (modificationArguments_holds as).ends

theorem comments_holds : ∀ cs : List Source.Comment, M.holds (Source.Comment.allPlain cs) (comments cs)
  | [] => by
    rw [comments]
    exact M.pure _
  | c :: cs => by
    rw [comments, Source.Comment.allPlain]
    exact (comment_holds c).left.bind fun _ => (comments_holds cs).right

end

mutual

theorem equations_holds : ∀ es : List Source.Equation, M.holds false (equations es)
  | [] => by
    rw [equations]
    exact M.pure _
  | e :: es => by
    rw [equations]
    exact (equation_holds e).bind fun _ => (equations_holds es).ends

theorem equation_holds : ∀ e : Source.Equation, M.holds false (equation e)
  | .mk (.simple l r) note | .mk (.connect l r) note => by
    rw [equation]
    exact value fun _ => value fun _ => (comment_holds M note).any.ends
  | .mk (.ifThen bs none) note | .mk (.whenThen bs) note => by
    rw [equation]
    exact (equationBranches_holds bs).bind fun _ => (comment_holds M note).any.ends
  | .mk (.ifThen bs (some es)) note => by
    rw [equation]
    exact (equationBranches_holds bs).bind fun _ => (equations_holds es).bind fun _ => (comment_holds M note).any.ends
  | .mk (.forLoop is es) note => by
    rw [equation]
    exact value fun _ => (equations_holds es).bind fun _ => (comment_holds M note).any.ends
  | .mk (.call name as) note => by
    rw [equation]
    exact value fun _ => (comment_holds M note).any.ends

theorem equationBranches_holds : ∀ bs : List Source.EquationBranch, M.holds false (equationBranches bs)
  | [] => by
    rw [equationBranches]
    exact M.pure _
  | .mk condition es :: bs => by
    rw [equationBranches]
    exact value fun _ => (equations_holds es).bind fun _ => (equationBranches_holds bs).ends

end

mutual

theorem statements_holds : ∀ ss : List Source.Statement, M.holds false (statements ss)
  | [] => by
    rw [statements]
    exact M.pure _
  | s :: ss => by
    rw [statements]
    exact (statement_holds s).bind fun _ => (statements_holds ss).ends

theorem statement_holds : ∀ s : Source.Statement, M.holds false (statement s)
  | .mk (.assign l r) note => by
    rw [statement]
    exact value fun _ => value fun _ => (comment_holds M note).any.ends
  | .mk (.call f as) note => by
    rw [statement]
    exact value fun _ => (M.ofExcept _).fails
  | .mk (.assignCall ls f as) note => by
    rw [statement]
    exact value fun _ => value fun _ => value fun _ => (comment_holds M note).any.ends
  | .mk .break_ note | .mk .return_ note => by
    rw [statement]
    exact (comment_holds M note).any.fails
  | .mk (.ifThen bs none) note => by
    rw [statement]
    exact (statementBranches_holds bs).bind fun _ => (comment_holds M note).any.ends
  | .mk (.ifThen bs (some ss)) note => by
    rw [statement]
    exact (statementBranches_holds bs).bind fun _ => (statements_holds ss).bind fun _ => (comment_holds M note).any.ends
  | .mk (.forLoop is ss) note => by
    rw [statement]
    exact value fun _ => (statements_holds ss).bind fun _ => (comment_holds M note).any.ends
  | .mk (.whileLoop condition ss) note => by
    rw [statement]
    exact value fun _ => (statements_holds ss).bind fun _ => (comment_holds M note).any.fails
  | .mk (.whenThen bs) note => by
    rw [statement]
    exact (statementBranches_holds bs).fails

theorem statementBranches_holds : ∀ bs : List Source.StatementBranch, M.holds false (statementBranches bs)
  | [] => by
    rw [statementBranches]
    exact M.pure _
  | .mk condition ss :: bs => by
    rw [statementBranches]
    exact value fun _ => (statements_holds ss).bind fun _ => (statementBranches_holds bs).ends

end

theorem constraints_holds (cs : List Source.Constraint) : M.holds false (constraints cs) := by
  induction cs with
  | nil => exact M.pure _
  | cons c cs ih =>
    rw [constraints]
    exact value fun _ => value fun _ => (comment_holds M c.comment).any.bind fun _ => ih.ends

theorem declaration_holds (d : Source.Declaration) : M.holds false (declaration d) := by
  unfold declaration
  refine M.enterSymbol.bind fun id => (enterDeclaration_holds M id d.name).bind fun _ => ?_
  have last := (comment_holds M d.comment).any.bind fun text => exitSymbol_holds M id text
  obtain _ | items := d.subscripts
  on_goal 1 => refine (M.pure none).bind fun own => ?_
  on_goal 2 => refine ((M.ofExcept _).map some).bind fun own => ?_
  all_goals
    obtain _ | m := d.modification
    on_goal 1 => refine (M.pure none).bind fun changes => ?_
    on_goal 2 => refine ((modification_holds M m).any.map some).bind fun changes => ?_
  all_goals
    refine (exitDeclaration_holds M own changes).bind fun _ => ?_
    cases d.condition with
    | none => exact last
    | some e => exact value fun _ => last

theorem componentClause_holds (clause : Source.ComponentClause) : M.holds false (componentClause clause) := by
  unfold componentClause
  refine (M.enterClause _ _).bind fun number => ?_
  obtain _ | items := clause.subscripts
  on_goal 1 => refine (M.pure none).bind fun dims => ?_
  on_goal 2 => refine ((M.ofExcept _).map some).bind fun dims => ?_
  all_goals
    refine (forEach _ (fun d _ => (declaration_holds M d).ends) _).bind fun _ => ?_
    refine seen fun c => seen fun r => seen fun own => ?_
    -- The symbols of the clause are relabelled once, or twice if the type has subscripts.
    obtain _ | items := dims
    on_goal 2 => refine (forEach _ (fun member _ => ?_) _).bind fun _ => ?_
    on_goal 3 => refine (forEach _ (fun member _ => ?_) _).ends
    on_goal 1 => refine (forEach _ (fun member _ => ?_) _).ends
    all_goals
      refine seen fun d => seen fun e => ?_
      split
      · exact (M.throw _).ends
      · next s _ => exact (change s).ends

theorem optionalModification_holds : ∀ change : Option Source.ClassModification,
    M.holds ((change.map Source.ModificationArgument.allPlain).getD true) (optionalModification change)
  | none => M.pure none
  | some as => (classModification_holds M as).map some

theorem constraining_holds : ∀ k : Option Source.Constraining, M.holds false (constraining k)
  | none => M.pure ()
  | some k => (optionalModification_holds M k.modification).any.bind fun _ => (comment_holds M k.comment).any.ends

theorem externalClause_holds : ∀ e : Option Source.External, M.holds false (externalClause e)
  | none => M.pure ()
  | some e => by
    have last := (optionalModification_holds M e.annotated).any.bind fun _ => M.pure ()
    unfold externalClause
    dsimp only
    split
    · split
      · exact value fun _ => value fun _ => last
      · exact value fun _ => last
    · exact last

theorem importClause_holds : ∀ clause : Source.Import, M.holds false (importClause clause)
  | .renaming _ _ note => value fun _ => (comment_holds M note).any.bind fun _ => seen fun c => declare c
  | .whole _ note | .all _ note => value fun _ => (comment_holds M note).any.fails
  | .selected _ _ _ => (M.ofExcept _).fails

end Define

end Modelica
