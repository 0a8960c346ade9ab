import Modelica.Proofs.Library.Unmoved

set_option autoImplicit false

namespace Modelica

variable (ok : String → Bool)

def ClassDef.Silent (d : ClassDef) : Prop :=
  d.initialEquations = [] ∧ d.equations = [] ∧ d.constraints = [] ∧ d.initialStatements = [] ∧
    d.statements = []

namespace Library

structure Variable (lib : Library) (s : SymbolId) : Prop where
  known : s.index < lib.symbols.size
  type : ∃ r, (lib.symbolOf s).type = .named r ∧ ok r.name = true
  bare : ∀ e ∈ (lib.symbolOf s).dimensions.flatten, e.bare = true
  connectorType : (lib.symbolOf s).connectorType = none

structure Bundle (lib : Library) (c : ClassId) : Prop where
  known : c.index < lib.classes.size
  kind : (lib.classOf c).type ≠ "__builtin"
  extends_ : (lib.classOf c).extends_ = []
  classes : (lib.classOf c).classes = .empty
  functions : (lib.classOf c).functions = .empty
  silent : (lib.classOf c).Silent
  unique : (lib.classOf c).symbols.keys.Nodup ∧ (lib.classOf c).symbols.values.Nodup
  members : ∀ s ∈ (lib.classOf c).symbols.values, lib.Variable ok s

structure Socket (lib : Library) (s : SymbolId) (c : ClassId) : Prop where
  known : s.index < lib.symbols.size
  type : ∃ name, (lib.symbolOf s).type = .connector name
  bare : ∀ e ∈ (lib.symbolOf s).dimensions.flatten, e.bare = true
  connectorType : (lib.symbolOf s).connectorType = some c
  bundle : lib.Bundle ok c
  origin : lib.Bundle ok (lib.classOf c).origin
  parent : (lib.classOf (lib.classOf c).origin).parent = none

section Later

variable {ok} {lib next : Library} {touched : SymbolId → Prop}

variable {s : SymbolId} {c : ClassId}

theorem Variable.of_skeleton {t : SymbolId} (variable_ : lib.Variable ok s) (known : t.index < next.symbols.size)
    (same : (next.symbolOf t).skeleton = (lib.symbolOf s).skeleton) : next.Variable ok t := by
  refine ⟨known, ?_, ?_, (congrArg Skeleton.connectorType same).trans variable_.connectorType⟩
  · rw [show (next.symbolOf t).type = _ from congrArg Skeleton.type same]
    exact variable_.type
  · rw [show (next.symbolOf t).dimensions = _ from congrArg Skeleton.dimensions same]
    exact variable_.bare

theorem Variable.later (variable_ : lib.Variable ok s) (steady : lib.Steady touched next)
    (apart : ¬ touched s) : next.Variable ok s :=
  variable_.of_skeleton (variable_.known.trans_le steady.moreSymbols) (steady.symbolOf s variable_.known apart)

theorem Variable.modifyClass (variable_ : lib.Variable ok s) (c : ClassId)
    (f : ClassDef → ClassDef) : (lib.modifyClass c f).Variable ok s :=
  { variable_ with }

theorem Bundle.of_eq (bundle : lib.Bundle ok c) (same : next.classOf c = lib.classOf c)
    (known : c.index < next.classes.size)
    (members : ∀ s ∈ (lib.classOf c).symbols.values, next.Variable ok s) : next.Bundle ok c := by
  refine ⟨known, ?_, ?_, ?_, ?_, ?_, ?_, ?_⟩
  all_goals rw [same]
  · exact bundle.kind
  · exact bundle.extends_
  · exact bundle.classes
  · exact bundle.functions
  · exact bundle.silent
  · exact bundle.unique
  · exact members

theorem Bundle.pieces (bundle : lib.Bundle ok c) (piece : Piece) (there : piece ∈ lib.pieces (.class_ c)) :
    (∃ i ∈ (lib.classOf c).imports, piece = .expr (.ref i.component)) ∨
      (∃ s ∈ (lib.classOf c).symbols.values, piece = .entry (.symbol s)) ∨
      ∃ m, piece = .entry (.modification m) := by
  obtain ⟨none₁, none₂, none₃, none₄, none₅⟩ := bundle.silent
  have equations : Equation.allExprs [] = [] := rfl
  have statements : Statement.allExprs [] = [] := rfl
  simp only [Library.pieces, ClassDef.pieces, bundle.extends_, bundle.classes, bundle.functions, none₁,
    none₂, none₃, none₄, none₅, List.mem_append, List.flatMap_nil, OrderedMap.values,
    OrderedMap.entries_empty, List.map_nil, equations, statements, List.append_nil] at there
  obtain (((imported | listed) | annotated) | optimized) | role := there
  · obtain ⟨i, has, rfl⟩ := List.mem_map.1 imported
    exact .inl ⟨i, has, rfl⟩
  · obtain ⟨s, has, rfl⟩ := List.mem_map.1 listed
    exact .inr (.inl ⟨s, has, rfl⟩)
  · obtain ⟨m, _, rfl⟩ := List.mem_map.1 annotated
    exact .inr (.inr ⟨m, rfl⟩)
  · obtain ⟨m, _, rfl⟩ := List.mem_map.1 optimized
    exact .inr (.inr ⟨m, rfl⟩)
  · split at role
    · exact .inr (.inr ⟨_, List.mem_singleton.1 role⟩)
    · contradiction

theorem Bundle.later (bundle : lib.Bundle ok c) (steady : lib.Steady touched next)
    (apart : ∀ s ∈ (lib.classOf c).symbols.values, ¬ touched s) : next.Bundle ok c :=
  bundle.of_eq (steady.classOf c bundle.known) (bundle.known.trans_le steady.moreClasses)
    fun s member => (bundle.members s member).later steady (apart s member)

end Later

variable {ok} {renamed : SymbolId → Prop} {lib next : Library}

section Kept

variable (kept : lib.Unmoved ok renamed next)

include kept

theorem Variable.unmoved {s : SymbolId} (variable_ : lib.Variable ok s) : next.Variable ok s := by
  obtain ⟨r, type, holds⟩ := variable_.type
  refine ⟨variable_.known.trans_le kept.moreSymbols, ?_, ?_, ?_⟩
  · cases kept.moved s variable_.known with
    | same type' _ => exact ⟨r, type'.trans type, holds⟩
    | value _ q _ _ new holds _ => exact ⟨q, new, holds⟩
    | socket _ _ old => rw [type] at old; contradiction
  · rw [kept.dimensions s variable_.known]
    exact variable_.bare
  · cases kept.moved s variable_.known with
    | same _ connected | value _ _ _ _ _ _ connected => exact connected.trans variable_.connectorType
    | socket _ _ old => rw [type] at old; contradiction

theorem Bundle.unmoved {c : ClassId} (bundle : lib.Bundle ok c) : next.Bundle ok c :=
  bundle.of_eq (kept.classOf c bundle.known) (bundle.known.trans_le kept.moreClasses)
    fun s member => (bundle.members s member).unmoved kept

theorem Socket.unmoved {s : SymbolId} {c : ClassId} (socket : lib.Socket ok s c) : next.Socket ok s c := by
  obtain ⟨name, type⟩ := socket.type
  have class_ := kept.classOf c socket.bundle.known
  have stays : (next.symbolOf s).type = (lib.symbolOf s).type ∧
      (next.symbolOf s).connectorType = (lib.symbolOf s).connectorType := by
    cases kept.moved s socket.known with
    | same type' connected => exact ⟨type', connected⟩
    | value _ _ old | socket _ _ old => rw [type] at old; contradiction
  refine ⟨socket.known.trans_le kept.moreSymbols, ⟨name, stays.1.trans type⟩, ?_,
    stays.2.trans socket.connectorType, socket.bundle.unmoved kept, ?_, ?_⟩
  · rw [kept.dimensions s socket.known]
    exact socket.bare
  · rw [class_]
    exact socket.origin.unmoved kept
  · rw [class_, kept.classOf _ socket.origin.known]
    exact socket.parent

end Kept

def Placed (ok : String → Bool) (bound : Nat) (lib : Library) (s : SymbolId) : Prop :=
  lib.Variable ok s ∨ ∃ c, lib.Socket ok s c ∧ bound < c.index ∧ bound < (lib.classOf c).origin.index

namespace Placed

variable {bound : Nat} {s : SymbolId}

section

variable (placed : lib.Placed ok bound s)
include placed

theorem unmoved (kept : lib.Unmoved ok renamed next) : next.Placed ok bound s := by
  refine placed.imp (·.unmoved kept) fun ⟨c, socket, larger, origin⟩ => ⟨c, socket.unmoved kept, larger, ?_⟩
  rw [kept.classOf c socket.bundle.known]
  exact origin

theorem known : s.In lib :=
  placed.elim (·.known) fun ⟨_, socket, _⟩ => socket.known

theorem mono {less : Nat} (le : less ≤ bound) : lib.Placed ok less s :=
  placed.imp id fun ⟨c, socket, larger, origin⟩ => ⟨c, socket, by omega, by omega⟩

end

end Placed

theorem Bundle.modifyClass {c : ClassId} (bundle : lib.Bundle ok c) (d : ClassId) (other : d ≠ c)
    (f : ClassDef → ClassDef) : (lib.modifyClass d f).Bundle ok c :=
  bundle.of_eq (classOf_modifyClass_ne lib d c f other) (by simpa using bundle.known)
    fun s member => (bundle.members s member).modifyClass d f

theorem Placed.modifyClass {s : SymbolId} (c : ClassId) (placed : lib.Placed ok c.index s)
    (f : ClassDef → ClassDef) : (lib.modifyClass c f).Placed ok c.index s := by
  have apart : ∀ d : ClassId, c.index < d.index → c ≠ d := by
    rintro d larger rfl
    exact lt_irrefl _ larger
  refine placed.imp (·.modifyClass c f) fun ⟨d, socket, larger, origin⟩ => ⟨d, ?_, larger, ?_⟩
  · have same := classOf_modifyClass_ne lib c d f (apart d larger)
    refine ⟨socket.known, socket.type, socket.bare, socket.connectorType,
      socket.bundle.modifyClass c (apart d larger) f, ?_, ?_⟩
    · rw [same]
      exact socket.origin.modifyClass c (apart _ origin) f
    · rw [same, classOf_modifyClass_ne lib c _ f (apart _ origin)]
      exact socket.parent
  · rw [classOf_modifyClass_ne lib c d f (apart d larger)]
    exact origin

end Library

namespace Copy

open Build Library

variable {ok} {fuel : Nat}

section

variable (s : SymbolId) (memo : Memo) (now : Library) (light : now.Light ok)
  (unnoted : memo.symbols.lookup s = none)
include s memo now light unnoted

theorem copySymbol_leaf (type : ∀ c, (now.symbolOf s).type ≠ .instance_ c)
    (bare : ∀ e ∈ (now.symbolOf s).dimensions.flatten, e.bare = true)
    {good : SymbolId × Memo → Library → Prop}
    (finish : ∀ (after : Memo) (next : Library) (d : Symbol), Aside ok
      { memo with symbols := (s, now.nextSymbol) :: memo.symbols }
      (now.pushSymbol (now.symbolOf s)) after next → d.light ok = true →
      d.skeleton = (now.symbolOf s).skeleton → Ensures (StateT.run (do
        let c ← copyOption (copyClass fuel) (now.symbolOf s).connectorType
        lift (updateSymbol now.nextSymbol fun _ => { d with connectorType := c })
        pure now.nextSymbol : Copying SymbolId) after) next good anyhow) :
    Ensures ((copySymbol (fuel + 1) s).run memo) now good anyhow := by
  rw [copySymbol_succ, ensures_run_get, unnoted]
  dsimp only
  rw [ensures_run_lift, ensures_symbolOf, ensures_run_lift, ensures_addSymbol, noteSymbol,
    ensures_run_modify, symbolContent]
  have lightSymbol := light.symbols s
  generalize now.symbolOf s = d at *
  have before := Aside.refl { memo with symbols := (s, now.nextSymbol) :: memo.symbols }
    (light.pushSymbol d lightSymbol)
  generalize now.nextSymbol = t at *
  generalize now.pushSymbol d = lib at *
  generalize ({ memo with symbols := (s, t) :: memo.symbols } : Memo) = start at *
  obtain ⟨typed, dimensions, attributes⟩ := (d.light_iff ok).1 lightSymbol
  have go := staying ok fuel
  have sameType : copyType fuel d.type = pure d.type := by
    cases has : d.type with
    | named r =>
      rw [has] at typed
      rw [copyType, r.rename_of_bare (inside fuel) (fun _ => rfl) typed, pure_bind]
    | instance_ c => exact absurd has (type c)
    | connector name => rfl
  rw [sameType, pure_bind, rows_of_bare (inside fuel) (fun _ => rfl) d.dimensions bare, pure_bind]
  simp only [bind_assoc, pure_bind]
  refine before.bind (go.expr d.start (attributes .start)) fun start' _ _ before h₁ => ?_
  refine before.bind (go.expr d.min (attributes .min)) fun min _ _ before h₂ => ?_
  refine before.bind (go.expr d.max (attributes .max)) fun max _ _ before h₃ => ?_
  refine before.bind (go.expr d.nominal (attributes .nominal)) fun nominal _ _ before h₄ => ?_
  refine before.bind (go.expr d.value (attributes .value)) fun value _ _ before h₅ => ?_
  refine before.bind (go.expr d.fixed (attributes .fixed)) fun fixed _ _ before h₆ => ?_
  refine before.bind (go.expr d.unit (attributes .unit)) fun unit _ _ before h₇ => ?_
  refine before.bind (go.expr d.free (attributes .free)) fun free _ _ before h₈ => ?_
  refine before.bind (go.expr d.initialGuess (attributes .initialGuess)) fun initialGuess _ _ before h₉ => ?_
  refine before.bind (copyOption_goes (aside ok) _ go.modifications d.modification) fun modification _ _ before _ => ?_
  refine finish _ _ { d with
    start := start', min := min, max := max, nominal := nominal, value := value, fixed := fixed
    unit := unit, free := free, initialGuess := initialGuess, modification := modification }
    before ((Symbol.light_iff ok _).2 ⟨typed, dimensions, fun a => ?_⟩) rfl
  cases a <;> assumption

theorem copySymbol_variable (variable_ : now.Variable ok s) :
    Ensures ((copySymbol (fuel + 1) s).run memo) now (fun r next => next.Light ok ∧
      next.classes = now.classes ∧ now.Steady never next ∧
      next.symbols.size = now.symbols.size + 1 ∧ r.1 = now.nextSymbol ∧
      (next.symbolOf now.nextSymbol).skeleton = (now.symbolOf s).skeleton ∧
      r.2.classes = memo.classes ∧ r.2.symbols = (s, now.nextSymbol) :: memo.symbols)
      anyhow := by
  have named : ∀ c, (now.symbolOf s).type ≠ .instance_ c := by
    obtain ⟨r, type, _⟩ := variable_.type
    rw [type]
    exact fun _ => nofun
  refine copySymbol_leaf s memo now light unnoted named variable_.bare ?_
  intro after next d aside lightCopy same
  have last : next.symbols.size = now.symbols.size + 1 := by
    rw [aside.symbols, symbols_size_pushSymbol]
  have known : now.nextSymbol.index < next.symbols.size := by
    rw [last]
    exact Nat.lt_succ_self _
  have none : d.connectorType = none := (congrArg Skeleton.connectorType same).trans variable_.connectorType
  rw [variable_.connectorType, copyOption, pure_bind, ensures_run_lift, ensures_updateSymbol,
    StateT.run_pure, ensures_pure, ← none]
  refine ⟨aside.light.modifySymbol _ _ lightCopy, aside.classes, ?_, ?_, rfl, ?_,
    aside.notedClasses, aside.notedSymbols⟩
  · exact (((Steady.refl _ now).pushSymbol _).trans (.of_eq aside.classes aside.symbols)).modifyNew
      _ le_rfl _
  · rw [symbols_size_modifySymbol, last]
  · rw [symbolOf_modifySymbol_self next _ _ known]
    exact same

end

theorem copyValues_variables {κ : Type} (es : List (κ × SymbolId)) (memo : Memo) (now : Library)
    (light : now.Light ok) (unnoted : ∀ e ∈ es, memo.symbols.lookup e.2 = none)
    (distinct : (es.map Prod.snd).Nodup) (all : ∀ e ∈ es, now.Variable ok e.2) :
    Ensures ((copyValues (copySymbol fuel) es).run memo) now (fun r next => next.Light ok ∧
      next.classes = now.classes ∧ now.Steady never next ∧ r.2.classes = memo.classes ∧
      r.1.map Prod.fst = es.map Prod.fst ∧ (r.1.map Prod.snd).Nodup ∧
      ∀ e ∈ r.1, now.symbols.size ≤ e.2.index ∧ next.Variable ok e.2) anyhow := by
  induction es generalizing memo now with
  | nil =>
    rw [copyValues, StateT.run_pure, ensures_pure]
    exact ⟨light, rfl, .refl _ now, rfl, rfl, List.nodup_nil, fun _ member => absurd member List.not_mem_nil⟩
  | cons e es ih =>
    rw [List.map_cons, List.nodup_cons] at distinct
    rw [List.forall_mem_cons] at unnoted all
    obtain ⟨variable_, all⟩ := all
    rw [copyValues, StateT.run_bind, ensures_bind]
    cases fuel with
    | zero =>
      unfold copySymbol
      exact (ensures_run_throw _).2 trivial
    | succ fuel =>
    refine (copySymbol_variable e.2 memo now light unnoted.1 variable_).imp ?_
    rintro ⟨s, after⟩ mid ⟨light, classes, steady, size, rfl, same, notedClasses, notes⟩
    have new : mid.Variable ok now.nextSymbol := by
      refine variable_.of_skeleton ?_ same
      rw [size]
      exact Nat.lt_succ_self _
    rw [StateT.run_bind, ensures_bind]
    refine (ih after mid light (fun e' member => ?_) distinct.2 fun e member => (all e member).later steady id).imp ?_
    · have other : e'.2 ≠ e.2 := fun same => distinct.1 (same ▸ List.mem_map_of_mem member)
      rw [notes, List.lookup_cons, beq_false_of_ne other]
      exact unnoted.2 e' member
    · rintro ⟨copies, last⟩ next ⟨light, classes', further, notedClasses', keys, distinct, others⟩
      rw [StateT.run_pure, ensures_pure]
      refine ⟨light, classes'.trans classes, steady.trans further, notedClasses'.trans notedClasses,
        congrArg (e.1 :: ·) keys, List.nodup_cons.2 ⟨fun member => ?_, distinct⟩, ?_⟩
      · obtain ⟨copy, listed, again⟩ := List.mem_map.1 member
        have := (others copy listed).1
        rw [size, again] at this
        exact Nat.not_succ_le_self _ this
      · rintro copy (_ | ⟨_, member⟩)
        · exact ⟨le_rfl, new.later further id⟩
        · exact ⟨steady.moreSymbols.trans (others copy member).1, (others copy member).2⟩

structure NewBundle (ok : String → Bool) (bound : Nat) (o : ClassId) (now : Library) (e : ClassId)
    (next : Library) : Prop where
  light : next.Light ok
  steady : now.Steady (fun _ => False) next
  new : e = now.nextClass
  bundle : next.Bundle ok e
  origin : (next.classOf e).origin = o
  members : ∀ s ∈ (next.classOf e).symbols.values, bound < s.index

theorem copyClass_bundle (c : ClassId) (bound : Nat) (memo : Memo) (now : Library)
    (light : now.Light ok) (unnoted : memo.classes = []) (above : bound < now.symbols.size)
    (origin : now.Bundle ok (now.classOf c).origin)
    (parent : (now.classOf (now.classOf c).origin).parent = none)
    (apart : ∀ s ∈ (now.classOf (now.classOf c).origin).symbols.values, memo.symbols.lookup s = none) :
    Ensures ((copyClass fuel c).run memo) now
      (fun r next => NewBundle ok bound (now.classOf c).origin now r.1 next) anyhow := by
  obtain _ | fuel := fuel
  · unfold copyClass
    exact (ensures_run_throw _).2 trivial
  unfold copyClass
  rw [ensures_run_get, unnoted, List.lookup_nil]
  dsimp only
  rw [ensures_run_lift, ensures_classOf]
  obtain _ | fuel := fuel
  · unfold copyOrigin
    rw [StateT.run_bind, ensures_bind]
    exact (ensures_run_throw _).2 trivial
  generalize (now.classOf c).origin = o at *
  obtain ⟨none₁, none₂, none₃, none₄, none₅⟩ := origin.silent
  have kind := origin.kind
  have noBases := origin.extends_
  have noClasses := origin.classes
  have noFunctions := origin.functions
  have unique := origin.unique
  have members := fun e (member : e ∈ (now.classOf o).symbols.entries) =>
    And.intro (origin.members _ (List.mem_map_of_mem member)) (apart _ (List.mem_map_of_mem member))
  have lightClass := light.classes o
  rw [copyOrigin_succ, StateT.run_bind, ensures_bind, ensures_run_lift, ensures_classOf, parent]
  generalize now.classOf o = d at *
  dsimp only
  rw [ensures_run_get, unnoted, List.lookup_nil]
  dsimp only
  rw [copyNew, ensures_run_lift, ensures_addClass, noteClass, ensures_run_modify, classContent]
  simp only [bind_assoc]
  have start := (Steady.refl never now).pushClass { d with origin := o }
  have lightStart := light.pushClass { d with origin := o } lightClass
  have size : (now.pushClass { d with origin := o }).classes.size = now.classes.size + 1 := classes_size_pushClass now _
  generalize now.pushClass { d with origin := o } = lib at *
  rw [noBases, noClasses, noFunctions, none₁, none₂, none₃, none₄, none₅,
    copyList, pure_bind, OrderedMap.entries_empty, copyValues, pure_bind, StateT.run_bind,
    ensures_bind]
  refine (copyValues_variables _ _ _ lightStart ?_ unique.2 fun e member => (members e member).1.later start id).imp ?_
  · exact fun e member => (members e member).2
  rintro ⟨symbols, notes⟩ mid ⟨light, classes, steady, notedClasses, keys, distinct, made⟩
  have before := Aside.refl notes light
  rw [OrderedMap.entries_empty, copyValues, pure_bind, Mapping.equations, pure_bind, pure_bind,
    Mapping.constraints, pure_bind, Mapping.statements, pure_bind, pure_bind]
  refine before.bind (copyOption_goes (aside ok) _ (staying ok fuel).modifications _) fun annotated _ _ before _ => ?_
  refine before.bind (copyOption_goes (aside ok) _ (staying ok fuel).modifications _)
    fun optimization _ _ before _ => ?_
  have role : (aside ok).gives (copyRole fuel d.role) fun _ => True := by
    cases d.role with
    | instance_ e =>
      exact (aside ok).bind ((staying ok fuel).modifications e) fun _ _ => (aside ok).pure trivial
    | definition | root => exact (aside ok).pure trivial
  refine before.bind role fun role after next aside _ => ?_
  rw [pure_bind, ensures_run_lift, ensures_updateClass, ensures_run_modify, StateT.run_pure, ensures_pure]
  have further : mid.Steady never next := .of_eq aside.classes aside.symbols
  have whole := (start.trans steady).trans further
  have known : now.nextClass.index < next.classes.size := by
    rw [aside.classes, classes, size]
    exact Nat.lt_succ_self _
  have copied : ∀ e after next, NewBundle ok bound o now e next →
      Ensures (StateT.run (if e = c then pure e else do noteClass c e; pure e) after) next
        (fun r next => NewBundle ok bound o now r.1 next) anyhow := by
    intro e after next new
    split
    · exact .pure new
    · rw [noteClass, ensures_run_modify]
      exact .pure new
  refine copied _ _ _ ⟨aside.light.modifyClass _ _ rfl, whole.modifyClass _ le_rfl _, rfl,
    ⟨?_, ?_, ?_, ?_, ?_, ?_, ?_, ?_⟩, ?_, ?_⟩
  · simpa using known
  all_goals rw [classOf_modifyClass_self next _ _ known]
  · exact kind
  · rfl
  · rfl
  · exact ⟨rfl, rfl, rfl, rfl, rfl⟩
  · exact ⟨show (symbols.map Prod.fst).Nodup from keys ▸ unique.1, distinct⟩
  · intro s member
    obtain ⟨e, listed, rfl⟩ := List.mem_map.1 member
    exact ((made e listed).2.later further id).modifyClass _ _
  · intro s member
    obtain ⟨e, listed, rfl⟩ := List.mem_map.1 member
    exact above.trans_le (start.moreSymbols.trans (made e listed).1)

theorem copySymbol_socket (s : SymbolId) (c : ClassId) (now : Library) (light : now.Light ok)
    (socket : now.Socket ok s c) :
    Ensures ((copySymbol (fuel + 1) s).run {}) now (fun r next => next.Light ok ∧
      now.Steady never next ∧ r.1 = now.nextSymbol ∧
      (next.symbolOf r.1).name = (now.symbolOf s).name ∧
      (next.symbolOf r.1).dimensions = (now.symbolOf s).dimensions ∧
      ∃ e, e.New now ∧ next.Socket ok r.1 e ∧ (next.classOf e).origin = (now.classOf c).origin ∧
        ∀ m ∈ (next.classOf e).symbols.values, now.nextSymbol.index < m.index)
      anyhow := by
  have named : ∀ c, (now.symbolOf s).type ≠ .instance_ c := by
    obtain ⟨name, type⟩ := socket.type
    rw [type]
    exact fun _ => nofun
  refine copySymbol_leaf s {} now light rfl named socket.bare ?_
  intro after next d aside lightCopy same
  have steady : now.Steady never next :=
    ((Steady.refl _ now).pushSymbol _).trans (.of_eq aside.classes aside.symbols)
  have known : now.nextSymbol.index < next.symbols.size := by
    rw [aside.symbols, symbols_size_pushSymbol]
    exact Nat.lt_succ_self _
  have old := socket.unmoved (steady.unmoved : now.Unmoved ok never next)
  have apart : ∀ m ∈ (next.classOf (next.classOf c).origin).symbols.values, after.symbols.lookup m = none := by
    intro m member
    have other : m ≠ s := by
      rintro rfl
      have none := (old.origin.members m member).connectorType
      rw [old.connectorType] at none
      contradiction
    rw [aside.notedSymbols, List.lookup_cons, beq_false_of_ne other]
    rfl
  rw [socket.connectorType, copyOption, bind_map_left, StateT.run_bind, ensures_bind]
  refine (copyClass_bundle c _ after next aside.light aside.notedClasses known old.origin old.parent apart).imp ?_
  rintro ⟨e, notes⟩ last new
  rw [ensures_run_lift, ensures_updateSymbol, StateT.run_pure, ensures_pure]
  have self := (symbolOf_modifySymbol_self last now.nextSymbol · (known.trans_le new.steady.moreSymbols))
  have change := last.steady_modifySymbol now.nextSymbol
  have sameClass (f) (c : ClassId) : (last.modifySymbol now.nextSymbol f).classOf c = last.classOf c := rfl
  refine ⟨new.light.modifySymbol _ _ lightCopy, (steady.trans new.steady).modifyNew _
    le_rfl _, rfl, ?_, ?_, e, ?_, ⟨?_, ?_, ?_, ?_, ?_, ?_, ?_⟩, ?_, ?_⟩
  · rw [self]
    exact congrArg Skeleton.name same
  · rw [self]
    exact congrArg Skeleton.dimensions same
  · rw [show e = next.nextClass from new.new]
    exact steady.moreClasses
  · simpa using known.trans_le new.steady.moreSymbols
  · rw [self]
    obtain ⟨name, type⟩ := socket.type
    exact ⟨name, (congrArg Skeleton.type same).trans type⟩
  · rw [self, show d.dimensions = _ from congrArg Skeleton.dimensions same]
    exact socket.bare
  · rw [self]
  · refine new.bundle.later (change _) fun m member at_ => ?_
    subst at_
    exact lt_irrefl _ (new.members _ member)
  · rw [sameClass, show (last.classOf e).origin = _ from new.origin]
    refine (old.origin.later new.steady fun _ _ => id).later (change _) fun m member at_ => ?_
    rw [new.steady.classOf _ old.origin.known, steady.classOf _ socket.bundle.known,
      steady.classOf _ socket.origin.known] at member
    have there := (socket.origin.members m member).known
    subst at_
    exact lt_irrefl _ there
  · rw [sameClass, sameClass, show (last.classOf e).origin = _ from new.origin, new.steady.classOf _ old.origin.known]
    exact old.parent
  · rw [sameClass, show (last.classOf e).origin = _ from new.origin, steady.classOf _ socket.bundle.known]
  · exact new.members

end Copy

end Modelica
