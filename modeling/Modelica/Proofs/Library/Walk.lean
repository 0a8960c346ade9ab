import Modelica.Library.Copy
import Modelica.Proofs.Library.Outcome
import Modelica.Proofs.OrderedMap
import Modelica.Proofs.Outline.Renamed

set_option autoImplicit false

namespace Modelica

namespace Copy

open Build Outline

section Run

variable {α β : Type} {memo : Memo} {now : Library} {good : β × Memo → Library → Prop}
  {bad : Error → Library → Prop}

theorem ensures_run_get (f : Memo → Copying β) :
    Ensures ((get >>= f).run memo) now good bad ↔ Ensures ((f memo).run memo) now good bad := by
  rw [StateT.run_bind, StateT.run_get, pure_bind]

theorem ensures_run_lift (x : Build α) (f : α → Copying β) : Ensures ((lift x >>= f).run memo) now good bad ↔
      x.Ensures now (fun a next => Ensures ((f a).run memo) next good bad) bad := by
  rw [Copy.lift, StateT.run_bind, StateT.run_lift, ensures_bind, ensures_bind]
  simp only [ensures_pure]

theorem ensures_run_modify (g : Memo → Memo) (f : PUnit → Copying β) :
    Ensures ((modify g >>= f).run memo) now good bad ↔ Ensures ((f PUnit.unit).run (g memo)) now good bad := by
  rw [StateT.run_bind, StateT.run_modify, pure_bind]

theorem ensures_run_throw (e : Error) : Ensures ((throw e : Copying β).run memo) now good bad ↔ bad e now := by
  show Ensures (throw e >>= fun b : β => pure (b, memo)) now _ _ ↔ _
  rw [ensures_bind, ensures_throw]

end Run

-- How a library may change while copies are made in it, and how the work may fail.
structure Pace where
  onward : Library → Library → Prop
  refl : ∀ lib, onward lib lib
  trans : ∀ {lib now next}, onward lib now → onward now next → onward lib next
  fails : Error → Prop

-- The work ends in a good state, and what is said of its result stays true from then on.
def Takes (P : Pace) (W : Memo → Library → Prop) (start : Library) {α : Type} (x : Copying α)
    (memo : Memo) (now : Library) (post : Library → α → Prop) : Prop :=
  Ensures (x.run memo) now (fun r next => W r.2 next ∧ P.onward start next ∧
    ∀ final, P.onward next final → post final r.1) fun e _ => P.fails e

namespace Takes

variable {P : Pace} {W W' : Memo → Library → Prop} {start now : Library} {memo : Memo}
  {α β : Type} {post : Library → β → Prop}

theorem pure {b : β} (good : W memo now) (since : P.onward start now)
    (holds : ∀ final, P.onward now final → post final b) : Takes P W start (pure b) memo now post := by
  rw [Takes, StateT.run_pure, ensures_pure]
  exact ⟨good, since, holds⟩

theorem get {f : Memo → Copying β} (then_ : Takes P W start (f memo) memo now post) :
    Takes P W start (get >>= f) memo now post :=
  (ensures_run_get f).2 then_

theorem lift {x : Build α} {f : α → Copying β}
    (each : x.Ensures now (fun a next => Takes P W start (f a) memo next post) fun e _ => P.fails e) :
    Takes P W start (Copy.lift x >>= f) memo now post :=
  (ensures_run_lift x f).2 each

theorem modify {f : PUnit → Copying β} (g : Memo → Memo)
    (then_ : Takes P W start (f PUnit.unit) (g memo) now post) : Takes P W start (modify g >>= f) memo now post :=
  (ensures_run_modify g f).2 then_

theorem throw {e : Error} (fails : P.fails e) : Takes P W start (throw e) memo now post := (ensures_run_throw e).2 fails

theorem bind {x : Copying α} {f : α → Copying β} {mid : Library → α → Prop} (first : Takes P W now x memo now mid)
    (second : ∀ a after next, W after next → P.onward now next →
      (∀ final, P.onward next final → mid final a) → Takes P W' start (f a) after next post) :
    Takes P W' start (x >>= f) memo now post := by
  rw [Takes, StateT.run_bind, ensures_bind]
  refine first.imp ?_
  rintro ⟨a, after⟩ next ⟨good, since, holds⟩
  exact second a after next good since holds

end Takes

def Pace.staging (P : Pace) (W : Memo → Library → Prop) :
    Staging (StateT Memo (EStateM Error Library)) Library where
  gives x post := ∀ memo now, W memo now → Takes P W now x memo now post
  pure holds := fun _ now good => .pure good (P.refl now) fun final _ => holds final
  bind first second := fun memo now good =>
    (first memo now good).bind fun a after next good since holds => by
      refine (second a after next good).imp ?_
      rintro r last ⟨good, more, right⟩
      exact ⟨good, P.trans since more, fun final within =>
        right final within (holds final (P.trans more within))⟩

theorem mem_of_lookup {κ γ : Type} [DecidableEq κ] (xs : List (κ × γ)) (k : κ) (a : γ)
    (found : xs.lookup k = some a) : (k, a) ∈ xs :=
  OrderedMap.mem_entries_of_find? ⟨xs⟩ k a found

def Memo.withParent (memo : Memo) : Option ClassId → Memo
  | some p => { memo with classes := (p, p) :: memo.classes }
  | none => memo

section Lists

variable {Stage : Type} (S : Staging (StateT Memo (EStateM Error Library)) Stage) {κ γ : Type}
  (f : γ → Copying γ) (Q : Stage → γ → γ → Prop)

theorem copyValues_related (es : List (κ × γ)) (each : ∀ a ∈ es.map Prod.snd, S.gives (f a) fun i b => Q i a b) :
    S.gives (copyValues f es) fun i es' => List.Forall₂ (fun e e' => e.1 = e'.1 ∧ Q i e.2 e'.2) es es' := by
  induction es with
  | nil => exact S.pure fun i => .nil
  | cons e es ih =>
    obtain ⟨k, a⟩ := e
    rw [List.map_cons, List.forall_mem_cons] at each
    exact S.two each.1 (ih each.2) fun _ _ _ first others => .cons ⟨rfl, first⟩ others

theorem copyList_related (xs : List γ) (each : ∀ a ∈ xs, S.gives (f a) fun i b => Q i a b) :
    S.gives (copyList f xs) fun i ys => List.Forall₂ (Q i) xs ys := by
  induction xs with
  | nil => exact S.pure fun i => .nil
  | cons a xs ih =>
    rw [List.forall_mem_cons] at each
    exact S.two each.1 (ih each.2) fun _ _ _ => .cons

theorem copyOption_related (a : Option γ) (each : ∀ b, a = some b → S.gives (f b) fun i c => Q i b c) :
    S.gives (copyOption f a) fun i b => Option.Rel (Q i) a b := by
  cases a with
  | none => exact S.pure fun _ => .none
  | some a =>
    show S.gives (some <$> f a) _
    rw [map_eq_pure_bind]
    exact S.bind (each a rfl) fun b => S.pure fun _ related => .some related

end Lists

section Goes

variable (J : Judgement (StateT Memo (EStateM Error Library))) {γ : Type} (f : γ → Copying γ)
  (each : ∀ b, J.gives (f b) fun _ => True)
include each

theorem copyList_goes (bs : List γ) : J.gives (copyList f bs) fun _ => True :=
  J.mono (copyList_related J.staging f (fun _ _ _ => True) bs fun b _ => each b) fun _ _ => trivial

theorem copyOption_goes (b : Option γ) : J.gives (copyOption f b) fun _ => True :=
  J.mono (copyOption_related J.staging f (fun _ _ _ => True) b fun b _ => each b) fun _ _ => trivial

end Goes

def inside (fuel : Nat) : Renaming (StateT Memo (EStateM Error Library)) :=
  ⟨copySymbol fuel, copyModification fuel, fun r => pure (.function r)⟩

def copyRole (fuel : Nat) : ClassRole → Copying ClassRole
  | .instance_ environment => do return .instance_ (← copyModification fuel environment)
  | role => pure role

def copyType (fuel : Nat) : SymbolType → Copying SymbolType
  | .named r => do return .named (← r.rename (inside fuel))
  | .instance_ c => do return .instance_ (← copyClass fuel c)
  | .connector name => pure (.connector name)

def classContent (fuel : Nat) (d : ClassDef) : Copying ClassDef := do
  let ids := inside fuel
  let extends_ ← copyList (fun e => do
    return { e with modification := ← copyModification fuel e.modification }) d.extends_
  let classes ← copyValues (copyClass fuel) d.classes.entries
  let symbols ← copyValues (copySymbol fuel) d.symbols.entries
  let functions ← copyValues (copyClass fuel) d.functions.entries
  let initialEquations ← ids.mapping.equations d.initialEquations
  let equations ← ids.mapping.equations d.equations
  let constraints ← ids.mapping.constraints d.constraints
  let initialStatements ← ids.mapping.statements d.initialStatements
  let statements ← ids.mapping.statements d.statements
  let annotated ← copyOption (copyModification fuel) d.annotated
  let optimization ← copyOption (copyModification fuel) d.optimization
  let role ← copyRole fuel d.role
  return { d with
    extends_ := extends_
    classes := ⟨classes⟩
    symbols := ⟨symbols⟩
    functions := ⟨functions⟩
    initialEquations := initialEquations
    equations := equations
    constraints := constraints
    initialStatements := initialStatements
    statements := statements
    annotated := annotated
    optimization := optimization
    role := role }

def symbolContent (fuel : Nat) (d : Symbol) : Copying Symbol := do
  let ids := inside fuel
  let type ← copyType fuel d.type
  let dimensions ← ids.mapping.rows d.dimensions
  let start ← d.start.rename ids
  let min ← d.min.rename ids
  let max ← d.max.rename ids
  let nominal ← d.nominal.rename ids
  let value ← d.value.rename ids
  let fixed ← d.fixed.rename ids
  let unit ← d.unit.rename ids
  let free ← d.free.rename ids
  let initialGuess ← d.initialGuess.rename ids
  let modification ← copyOption (copyModification fuel) d.modification
  let connectorType ← copyOption (copyClass fuel) d.connectorType
  return { d with
    type := type
    dimensions := dimensions
    start := start
    min := min
    max := max
    nominal := nominal
    value := value
    fixed := fixed
    unit := unit
    free := free
    initialGuess := initialGuess
    modification := modification
    connectorType := connectorType }

theorem exists_of_rel_some {α β : Type} {P : α → β → Prop} {a : Option α} {b : β} (related : Option.Rel P a (some b)) :
    ∃ a, P a b := by
  cases related with
  | some related => exact ⟨_, related⟩

inductive RolesAlike (R : Entry → Entry → Prop) : ClassRole → ClassRole → Prop
  | definition : RolesAlike R .definition .definition
  | root : RolesAlike R .root .root
  | instance_ {m n : ModificationId} : R (.modification m) (.modification n) →
      RolesAlike R (.instance_ m) (.instance_ n)

theorem RolesAlike.kind {R : Entry → Entry → Prop} {a b : ClassRole} (alike : RolesAlike R a b) : a.kind = b.kind := by
  cases alike <;> rfl

theorem RolesAlike.of_instance {R : Entry → Entry → Prop} {a : ClassRole} {n : ModificationId}
    (alike : RolesAlike R a (.instance_ n)) : ∃ m, R (.modification m) (.modification n) := by
  cases alike with
  | instance_ related => exact ⟨_, related⟩

inductive TypesAlike (R : Entry → Entry → Prop) : SymbolType → SymbolType → Prop
  | named {r s : ComponentRef} : Alike R r.outline s.outline → TypesAlike R (.named r) (.named s)
  | instance_ {c d : ClassId} : R (.class_ c) (.class_ d) → TypesAlike R (.instance_ c) (.instance_ d)
  | connector (name : Option String) : TypesAlike R (.connector name) (.connector name)

theorem TypesAlike.of_instance {R : Entry → Entry → Prop} {a : SymbolType} {d : ClassId}
    (alike : TypesAlike R a (.instance_ d)) : ∃ c, R (.class_ c) (.class_ d) := by
  cases alike with
  | instance_ related => exact ⟨_, related⟩

structure ClassMade (R : Entry → Entry → Prop) (d e : ClassDef) : Prop where
  extends_ : List.Forall₂ (fun a b => b = { a with modification := b.modification } ∧
    R (.modification a.modification) (.modification b.modification)) d.extends_ e.extends_
  classes : List.Forall₂ (fun a b => a.1 = b.1 ∧ R (.class_ a.2) (.class_ b.2)) d.classes.entries
    e.classes.entries
  symbols : List.Forall₂ (fun a b => a.1 = b.1 ∧ R (.symbol a.2) (.symbol b.2)) d.symbols.entries
    e.symbols.entries
  functions : List.Forall₂ (fun a b => a.1 = b.1 ∧ R (.class_ a.2) (.class_ b.2)) d.functions.entries
    e.functions.entries
  initialEquations : ItemsAlike R (Equation.outlines d.initialEquations)
    (Equation.outlines e.initialEquations)
  equations : ItemsAlike R (Equation.outlines d.equations) (Equation.outlines e.equations)
  constraints : ItemsAlike R (d.constraints.map Constraint.outline) (e.constraints.map Constraint.outline)
  initialStatements : ItemsAlike R (Statement.outlines d.initialStatements)
    (Statement.outlines e.initialStatements)
  statements : ItemsAlike R (Statement.outlines d.statements) (Statement.outlines e.statements)
  annotated : Option.Rel (fun a b => R (.modification a) (.modification b)) d.annotated e.annotated
  optimization : Option.Rel (fun a b => R (.modification a) (.modification b)) d.optimization e.optimization
  role : RolesAlike R d.role e.role
  rest : e = { d with
    extends_ := e.extends_
    classes := e.classes
    symbols := e.symbols
    functions := e.functions
    initialEquations := e.initialEquations
    equations := e.equations
    constraints := e.constraints
    initialStatements := e.initialStatements
    statements := e.statements
    annotated := e.annotated
    optimization := e.optimization
    role := e.role }

section ClassMade

variable {R : Entry → Entry → Prop} {d e : ClassDef} (made : ClassMade R d e)
include made

theorem ClassMade.parent : e.parent = d.parent := by
  rw [made.rest]

theorem ClassMade.mapValues_eq {γ : Type} (f : ClassId → γ) (same : ∀ a b, R (.class_ a) (.class_ b) → f b = f a) :
    e.classes.mapValues f = d.classes.mapValues f := by
  have each := made.classes
  unfold OrderedMap.mapValues
  generalize d.classes.entries = xs, e.classes.entries = ys at each
  induction each with
  | nil => rfl
  | cons first _ ih =>
    rw [List.map_cons, List.map_cons, first.1, same _ _ first.2]
    exact congrArg (fun m => OrderedMap.mk (_ :: m.entries)) ih

theorem ClassMade.component_eq : e.extends_.map (·.component) = d.extends_.map (·.component) := by
  have each := made.extends_
  generalize d.extends_ = xs, e.extends_ = ys at each
  induction each with
  | nil => rfl
  | cons first _ ih => rw [List.map_cons, List.map_cons, first.1, ih]

end ClassMade

structure SymbolMade (R : Entry → Entry → Prop) (d e : Symbol) : Prop where
  type : TypesAlike R d.type e.type
  dimensions : Alike R (dimensionOutline d.dimensions) (dimensionOutline e.dimensions)
  start : Alike R d.start.outline e.start.outline
  min : Alike R d.min.outline e.min.outline
  max : Alike R d.max.outline e.max.outline
  nominal : Alike R d.nominal.outline e.nominal.outline
  value : Alike R d.value.outline e.value.outline
  fixed : Alike R d.fixed.outline e.fixed.outline
  unit : Alike R d.unit.outline e.unit.outline
  free : Alike R d.free.outline e.free.outline
  initialGuess : Alike R d.initialGuess.outline e.initialGuess.outline
  modification : Option.Rel (fun a b => R (.modification a) (.modification b)) d.modification e.modification
  connectorType : Option.Rel (fun a b => R (.class_ a) (.class_ b)) d.connectorType e.connectorType
  rest : e = { d with
    type := e.type
    dimensions := e.dimensions
    start := e.start
    min := e.min
    max := e.max
    nominal := e.nominal
    value := e.value
    fixed := e.fixed
    unit := e.unit
    free := e.free
    initialGuess := e.initialGuess
    modification := e.modification
    connectorType := e.connectorType }

section Content

variable {Stage : Type} (S : Staging (StateT Memo (EStateM Error Library)) Stage)
  (R : Stage → Entry → Entry → Prop) {fuel : Nat} (held : Entry → Prop)
  (symbols : ∀ s, held (.symbol s) → S.gives (copySymbol fuel s) fun i t => R i (.symbol s) (.symbol t))
  (modifications : ∀ m, held (.modification m) →
    S.gives (copyModification fuel m) fun i n => R i (.modification m) (.modification n))

include symbols modifications

theorem classContent_made (d : ClassDef) (all : ∀ x ∈ d.outline.entries, held x)
    (classes : ∀ c, c ∈ d.classes.values ∨ c ∈ d.functions.values →
      S.gives (copyClass fuel c) fun i e => R i (.class_ c) (.class_ e)) :
    S.gives (classContent fuel d) fun i e => ClassMade (R i) d e := by
  have expr := Expr.rename_alike S (inside fuel) symbols modifications fun _ => rfl
  have ref := ComponentRef.rename_alike S (inside fuel) symbols modifications fun _ => rfl
  unfold ClassDef.outline at all
  simp only [entries, fieldEntries_append, fieldEntries, List.forall_mem_append] at all
  obtain ⟨⟨-, -, extends_, -, -, -, -, -, -, components, -, initialEquations, equations,
    constraints, initialStatements, statements, annotated, optimization, -⟩, role⟩ := all
  unfold classContent
  refine S.bind (copyList_related S _ (fun i a b => b = { a with modification := b.modification } ∧
    R i (.modification a.modification) (.modification b.modification)) d.extends_ fun e member => ?_)
    fun extends' => ?_
  · refine S.bind (modifications e.modification (extends_ _ ?_)) fun m => S.pure fun i related => ⟨rfl, related⟩
    refine (mem_itemEntries _ _ _).2 ⟨e, member, ?_⟩
    simp [ExtendsClause.outline, entries, fieldEntries]
  refine S.bind (copyValues_related S _ (fun i a b => R i (.class_ a) (.class_ b)) _ fun c member =>
    classes c (.inl member)) fun classes' => ?_
  refine S.bind (copyValues_related S _ (fun i a b => R i (.symbol a) (.symbol b)) _ fun s member =>
    symbols s (components _ ?_)) fun symbols' => ?_
  · obtain ⟨e, listed, rfl⟩ := List.mem_map.1 member
    exact (mem_tableEntries some Entry.symbol _ _).2 ⟨e, listed, rfl⟩
  refine S.bind (copyValues_related S _ (fun i a b => R i (.class_ a) (.class_ b)) _ fun c member =>
    classes c (.inr member)) fun functions' => ?_
  refine S.bind ((inside fuel).mapping.equations_alike S expr ref _ initialEquations) fun initialEquations' => ?_
  refine S.bind ((inside fuel).mapping.equations_alike S expr ref _ equations) fun equations' => ?_
  refine S.bind ((inside fuel).mapping.constraints_alike S expr _ constraints) fun constraints' => ?_
  refine S.bind ((inside fuel).mapping.statements_alike S expr _ initialStatements) fun initialStatements' => ?_
  refine S.bind ((inside fuel).mapping.statements_alike S expr _ statements) fun statements' => ?_
  refine S.bind (copyOption_related S _ (fun i a b => R i (.modification a) (.modification b)) _
    fun m has => modifications m (annotated _ (by simp [has, entries]))) fun annotated' => ?_
  refine S.bind (copyOption_related S _ (fun i a b => R i (.modification a) (.modification b)) _
    fun m has => modifications m (optimization _ (by simp [has, Outline.optional, entries])))
    fun optimization' => ?_
  have copied : S.gives (copyRole fuel d.role) fun i role' => RolesAlike (R i) d.role role' := by
    cases has : d.role with
    | definition => exact S.pure fun _ => .definition
    | root => exact S.pure fun _ => .root
    | instance_ m =>
      rw [has] at role
      refine S.bind (modifications m (role _ (by simp [fieldEntries, entries])))
        fun n => S.pure fun _ related => .instance_ related
  refine S.bind copied fun role' => S.pure ?_
  intro i role optimization annotated statements initialStatements constraints equations
    initialEquations functions symbols classes extends_
  exact ⟨extends_, classes, symbols, functions, initialEquations, equations, constraints,
    initialStatements, statements, annotated, optimization, role, rfl⟩

theorem symbolContent_made (d : Symbol) (all : ∀ x ∈ d.outline.entries, held x)
    (classes : ∀ c, d.type = .instance_ c ∨ d.connectorType = some c →
      S.gives (copyClass fuel c) fun i e => R i (.class_ c) (.class_ e)) :
    S.gives (symbolContent fuel d) fun i e => SymbolMade (R i) d e := by
  have expr := Expr.rename_alike S (inside fuel) symbols modifications fun _ => rfl
  have ref := ComponentRef.rename_alike S (inside fuel) symbols modifications fun _ => rfl
  unfold Symbol.outline at all
  simp only [entries, fieldEntries_append, fieldEntries, List.forall_mem_append] at all
  obtain ⟨⟨-, type, -, -, -, -, -, dimensions, -, start, min, max, nominal, value, fixed, unit,
    free, initialGuess, -, -, -, modification, -⟩, -⟩ := all
  have copied : S.gives (copyType fuel d.type) fun i type' => TypesAlike (R i) d.type type' := by
    cases has : d.type with
    | named r =>
      rw [has] at type
      exact S.bind (ref r type) fun r' => S.pure fun _ => .named
    | instance_ c => exact S.bind (classes c (.inl has)) fun c' => S.pure fun _ => .instance_
    | connector name => exact S.pure fun _ => .connector name
  unfold symbolContent
  refine S.bind copied fun type' => ?_
  refine S.bind ((inside fuel).mapping.rows_alike S expr _ dimensions) fun dimensions' => ?_
  refine S.bind (expr _ start) fun start' => ?_
  refine S.bind (expr _ min) fun min' => ?_
  refine S.bind (expr _ max) fun max' => ?_
  refine S.bind (expr _ nominal) fun nominal' => ?_
  refine S.bind (expr _ value) fun value' => ?_
  refine S.bind (expr _ fixed) fun fixed' => ?_
  refine S.bind (expr _ unit) fun unit' => ?_
  refine S.bind (expr _ free) fun free' => ?_
  refine S.bind (expr _ initialGuess) fun initialGuess' => ?_
  refine S.bind (copyOption_related S _ (fun i a b => R i (.modification a) (.modification b)) _
    fun m has => modifications m (modification _ (by simp [has, Outline.optional, entries])))
    fun modification' => ?_
  refine S.bind (copyOption_related S _ (fun i a b => R i (.class_ a) (.class_ b)) _ fun c has =>
    classes c (.inr has)) fun connectorType' => S.pure ?_
  intro i connectorType modification initialGuess free unit fixed value nominal max min start dimensions type
  exact ⟨type, dimensions, start, min, max, nominal, value, fixed, unit, free, initialGuess,
    modification, connectorType, rfl⟩

theorem copyArgumentValue_alike (v : ArgumentValue) (all : ∀ x ∈ v.outline.entries, held x) :
    S.gives (copyArgumentValue (fuel + 1) v) fun i w => v.outline.Alike (R i) w.outline := by
  have expr := Expr.rename_alike S (inside fuel) symbols modifications fun _ => rfl
  have ref := ComponentRef.rename_alike S (inside fuel) symbols modifications fun _ => rfl
  unfold copyArgumentValue
  cases v with
  | element r changes =>
    simp only [ArgumentValue.outline, entries, fieldEntries, List.forall_mem_append] at all
    refine S.bind (ref r all.1) fun r' => ?_
    refine S.bind (Expr.renameAll_alike S (inside fuel) symbols modifications (fun _ => rfl) changes
      all.2.1) fun changes' => S.pure fun i second first => ?_
    simp [ArgumentValue.outline, first, second]
  | clause c =>
    simp only [ArgumentValue.outline, entries, fieldEntries, List.forall_mem_append] at all
    refine S.bind (ref c.type all.2.1) fun type' => ?_
    refine S.bind ((inside fuel).mapping.rows_alike S expr _ all.2.2.1) fun dimensions' => ?_
    refine S.bind (copyList_related S _ (fun i a b => R i (.symbol a) (.symbol b)) c.symbols
      fun s member => symbols s (all.2.2.2.2.1 _ ((mem_itemEntries _ _ _).2
        ⟨s, member, by simp [entries]⟩))) fun symbols' => S.pure fun i related dimensions type => ?_
    have listed := itemsAlike_map (R i) (fun s => .entry (.symbol s)) (related.imp fun _ _ => (alike_entry (R i) _ _).2)
    simp [ArgumentValue.outline, listed, dimensions, type]
  | shortClass s =>
    refine S.bind (ref s.component fun x member => all x ?_) fun r' => S.pure fun i related => ?_
    · simp [ArgumentValue.outline, entries, fieldEntries, member]
    · simp [ArgumentValue.outline, Modification.outline, related]

end Content

def copyNew (fuel : Nat) (id : ClassId) (d : ClassDef) : Copying ClassId := do
  let c ← lift (addClass fun _ => { d with origin := id })
  noteClass id c
  let e ← classContent fuel d
  lift (updateClass c fun _ => { e with origin := id })
  noteClass id c
  return c

theorem copyOrigin_succ (fuel : Nat) (id : ClassId) : copyOrigin (fuel + 1) id = (do
      let d ← lift (classOf id)
      if let some p := d.parent then noteClass p p
      match (← get).classes.lookup id with
      | some c =>
        lift (updateClass c fun e => { e with origin := id })
        return c
      | none => copyNew fuel id d) := by
  rw [copyOrigin]
  refine bind_congr fun d => ?_
  extract_lets ids whole rest
  have same : whole = rest := by
    funext u
    refine bind_congr fun memo => ?_
    cases memo.classes.lookup id with
    | some c => rfl
    | none =>
      refine bind_congr fun c => bind_congr fun _ => ?_
      simp only [classContent, bind_assoc]
      cases d.role <;> simp only [copyRole, bind_assoc, pure_bind] <;> rfl
  clear_value whole rest
  subst same
  cases d.parent <;> rfl

theorem copyOrigin_takes {P : Pace} {W : Memo → Library → Prop} {start now : Library} {memo : Memo}
    {fuel : Nat} {c : ClassId} {post : Library → ClassId → Prop}
    (again : ∀ e, (memo.withParent (now.classOf c).parent).classes.lookup c = some e →
      Takes P W start (do lift (updateClass e fun d => { d with origin := c }); return e)
        (memo.withParent (now.classOf c).parent) now post)
    (new : (memo.withParent (now.classOf c).parent).classes.lookup c = none →
      Takes P W start (copyNew fuel c (now.classOf c)) (memo.withParent (now.classOf c).parent) now post) :
    Takes P W start (copyOrigin (fuel + 1) c) memo now post := by
  rw [copyOrigin_succ]
  refine .lift ((ensures_classOf c).2 ?_)
  have goes : Takes P W start (do
      match (← get).classes.lookup c with
      | some e => lift (updateClass e fun d => { d with origin := c }); return e
      | none => copyNew fuel c (now.classOf c)) (memo.withParent (now.classOf c).parent) now post := by
    refine .get ?_
    cases found : (memo.withParent (now.classOf c).parent).classes.lookup c with
    | some e => exact again e found
    | none => exact new found
  cases parent : (now.classOf c).parent with
  | none =>
    rw [parent] at goes
    exact goes
  | some p =>
    rw [parent] at goes
    exact .modify _ goes

theorem copySymbol_succ (fuel : Nat) (id : SymbolId) : copySymbol (fuel + 1) id = (do
      match (← get).symbols.lookup id with
      | some s => return s
      | none =>
        let d ← lift (symbolOf id)
        let s ← lift (addSymbol d)
        noteSymbol id s
        let e ← symbolContent fuel d
        lift (updateSymbol s fun _ => e)
        return s) := by
  rw [copySymbol]
  refine bind_congr fun memo => ?_
  cases memo.symbols.lookup id with
  | some s => rfl
  | none =>
    refine bind_congr fun d => bind_congr fun s => bind_congr fun _ => ?_
    simp only [symbolContent, bind_assoc]
    cases d.type <;> simp only [copyType, bind_assoc, pure_bind] <;> rfl

end Copy

end Modelica
