import Modelica.Proofs.Library.Socket

set_option autoImplicit false

namespace Modelica

def Surroundings.rows (s : Surroundings) (rows : List (List Expr)) : List (List Expr) :=
  rows.map (List.map (Expr.qualify s))

theorem Surroundings.mapping_exprs (s : Surroundings) (es : List Expr) :
    (s.mapping.exprs es).run = es.map (Expr.qualify s) := by
  induction es with
  | nil => rfl
  | cons e es ih => exact congrArg (e.qualify s :: ·) ih

theorem Surroundings.mapping_rows (s : Surroundings) (rows : List (List Expr)) :
    (s.mapping.rows rows).run = s.rows rows := by
  induction rows with
  | nil => rfl
  | cons es rows ih =>
    show (s.mapping.exprs es).run :: (s.mapping.rows rows).run = _
    rw [ih, s.mapping_exprs]
    rfl

theorem Surroundings.mem_rows (s : Surroundings) (rows : List (List Expr)) (e : Expr)
    (member : e ∈ (s.rows rows).flatten) : ∃ d ∈ rows.flatten, e = d.qualify s := by
  obtain ⟨row, listed, inRow⟩ := List.mem_flatten.1 member
  obtain ⟨old, there, rfl⟩ := List.mem_map.1 listed
  obtain ⟨d, inOld, rfl⟩ := List.mem_map.1 inRow
  exact ⟨d, List.mem_flatten.2 ⟨old, there, inOld⟩, rfl⟩

def SymbolType.qualify (s : Surroundings) : SymbolType → SymbolType
  | .named r => .named (r.qualify s)
  | type => type

def Symbol.qualify (s : Surroundings) (d : Symbol) : Symbol :=
  { d with
    type := d.type.qualify s
    dimensions := s.rows d.dimensions
    start := d.start.qualify s
    min := d.min.qualify s
    max := d.max.qualify s
    nominal := d.nominal.qualify s
    value := d.value.qualify s
    fixed := d.fixed.qualify s
    unit := d.unit.qualify s
    free := d.free.qualify s
    initialGuess := d.initialGuess.qualify s }

variable {ok : String → Bool}

theorem Symbol.light_qualify (s : Surroundings) (d : Symbol) (light : d.light ok = true) :
    (d.qualify s).light ok = true := by
  rw [Symbol.light_iff] at light ⊢
  obtain ⟨typed, rows, attributes⟩ := light
  refine ⟨?_, fun e member => ?_, fun a => ?_⟩
  · show (d.type.qualify s).bare = true
    cases has : d.type with
    | named r =>
      rw [has] at typed
      exact r.bare_qualify s typed
    | instance_ _ | connector _ => rfl
  · obtain ⟨old, there, rfl⟩ := s.mem_rows _ e member
    exact old.light_qualify s ok (rows old there)
  · have old := attributes a
    cases a <;> exact Expr.light_qualify s ok _ old

def Dotted (ok : String → Bool) : Prop := ∀ n : String, '.' ∈ n.toList → ok n = true

def Surroundings.Pointed (s : Surroundings) : Prop := s.before = "" ∨ '.' ∈ s.before.toList

theorem ComponentRef.ok_qualify (dotted : Dotted ok) (s : Surroundings) (pointed : s.Pointed)
    (r : ComponentRef) (holds : ok r.name = true) : ok (r.qualify s).name = true := by
  obtain ⟨name, groups, child⟩ := r
  rw [ComponentRef.qualify]
  split
  · show ok (s.before ++ ComponentRef.text _) = true
    obtain top | below := pointed
    · rw [top, String.empty_append]
      cases child with
      | none => exact holds
      | some c =>
        obtain ⟨rest, names⟩ := c.names_eq_cons
        refine dotted _ ?_
        rw [ComponentRef.text, ComponentRef.names, names, Text.join, String.intercalate_cons_cons]
        simp
    · refine dotted _ ?_
      simp [below]
  · exact holds

theorem Library.Variable.qualify (dotted : Dotted ok) (s : Surroundings) (pointed : s.Pointed)
    {lib next : Library} {t : SymbolId} (variable_ : lib.Variable ok t) (more : lib.symbols.size ≤ next.symbols.size)
    (same : next.symbolOf t = (lib.symbolOf t).qualify s) : next.Variable ok t := by
  refine ⟨variable_.known.trans_le more, ?_, ?_, ?_⟩
  · obtain ⟨r, type, holds⟩ := variable_.type
    refine ⟨r.qualify s, ?_, r.ok_qualify dotted s pointed holds⟩
    rw [same]
    show SymbolType.qualify s _ = _
    rw [type]
    rfl
  · rw [same]
    intro e member
    obtain ⟨d, there, rfl⟩ := s.mem_rows _ e member
    exact d.bare_qualify s (variable_.bare d there)
  · rw [same]
    exact variable_.connectorType

namespace Build

open Library

variable {ok : String → Bool} {lib : Library}

variable {good : Unit → Library → Prop} {bad : Error → Library → Prop}

theorem mapEntry_symbol (s : Surroundings) (t : SymbolId)
    (holds : ∀ f : Symbol → Symbol, f (lib.symbolOf t) = (lib.symbolOf t).qualify s → good () (lib.modifySymbol t f)) :
    (mapEntry (qualifying s) (.symbol t) : Build Unit).Ensures lib good bad := by
  have same : qualifying s = s.mapping.still := rfl
  unfold mapEntry
  simp only [same, ensures_bind, ensures_liftM, ensures_symbolOf, Mapping.still_rows,
    Mapping.still_expr, Mapping.still_ref]
  split
  · next r type =>
    simp only [ensures_bind, ensures_pure, ensures_liftM, ensures_updateSymbol]
    refine holds _ ?_
    simp only [Symbol.qualify, type, SymbolType.qualify, s.mapping_rows]
    rfl
  · next other =>
    have stays : (lib.symbolOf t).type.qualify s = (lib.symbolOf t).type := by
      cases type : (lib.symbolOf t).type with
      | named r => exact absurd type (other r)
      | instance_ c | connector c => rfl
    simp only [ensures_bind, ensures_pure, ensures_liftM, ensures_updateSymbol]
    refine holds _ ?_
    simp only [Symbol.qualify, stays, s.mapping_rows]
    rfl

theorem mapEntry_argument (s : Surroundings) (a : ArgumentId) (light : lib.Light ok)
    (holds : ∀ f : Argument → Argument, (f (lib.argumentOf a)).value.light ok = true →
      good () (lib.modifyArgument a f)) :
    (mapEntry (qualifying s) (.argument a) : Build Unit).Ensures lib good bad := by
  have same : qualifying s = s.mapping.still := rfl
  have old := light.arguments a
  unfold mapEntry
  simp only [same, ensures_bind, ensures_liftM, ensures_argumentOf, Mapping.still_ref]
  cases value : (lib.argumentOf a).value with
  | element component changes =>
    rw [value, ArgumentValue.light_element, Expr.allLight_iff] at old
    simp only [ensures_bind, ensures_pure, ensures_liftM, ensures_updateArgument, Mapping.still_exprs]
    refine holds _ ?_
    rw [ArgumentValue.light_element, Expr.allLight_iff, s.mapping_exprs]
    refine ⟨component.light_qualify s ok old.1, fun e member => ?_⟩
    obtain ⟨d, there, rfl⟩ := List.mem_map.1 member
    exact d.light_qualify s ok (old.2 d there)
  | clause c =>
    rw [value, ArgumentValue.light_clause] at old
    simp only [ensures_bind, ensures_pure, ensures_liftM, ensures_updateArgument, Mapping.still_rows]
    refine holds _ ?_
    rw [ArgumentValue.light_clause, s.mapping_rows]
    refine ⟨c.type.light_qualify s ok old.1, fun e member => ?_, old.2.2⟩
    obtain ⟨d, there, rfl⟩ := s.mem_rows _ e member
    exact d.light_qualify s ok (old.2.1 d there)
  | shortClass c =>
    rw [value, ArgumentValue.light_shortClass] at old
    simp only [ensures_bind, ensures_pure, ensures_liftM, ensures_updateArgument]
    refine holds _ ?_
    rw [ArgumentValue.light_shortClass]
    exact c.component.light_qualify s ok old

theorem mapEntry_silent (s : Surroundings) (c : ClassId) (bases : (lib.classOf c).extends_ = [])
    (silent : (lib.classOf c).Silent) (holds : ∀ imports, good () (lib.modifyClass c fun d =>
      { d with
        imports := imports, extends_ := [], initialEquations := [], equations := []
        constraints := [], initialStatements := [], statements := [] })) :
    (mapEntry (qualifying s) (.class_ c) : Build Unit).Ensures lib good bad := by
  have same : qualifying s = s.mapping.still := rfl
  obtain ⟨none₁, none₂, none₃, none₄, none₅⟩ := silent
  unfold mapEntry
  simp only [same, ensures_bind, ensures_liftM, ensures_classOf, Mapping.still_ref, bases, none₁,
    none₂, none₃, none₄, none₅, pure_bind, List.mapM_pure, List.map_nil, Mapping.equations,
    Mapping.constraints, Mapping.statements, ensures_pure, ensures_updateClass]
  exact holds _

end Build

def Entry.Side (e : Entry) : Prop := (∃ m, e = .modification m) ∨ ∃ a, e = .argument a

namespace Library

variable {ok : String → Bool} {lib : Library}

theorem mem_children_iff (e child : Entry) :
    child ∈ lib.children e ↔ ∃ piece ∈ lib.pieces e, .entry child ∈ piece.parts := by
  unfold children Library.parts
  rw [List.mem_filterMap]
  constructor
  · rintro ⟨part, member, same⟩
    obtain ⟨piece, there, inside⟩ := List.mem_flatMap.1 member
    cases part with
    | ref r => contradiction
    | entry x =>
      cases same
      exact ⟨piece, there, inside⟩
  · rintro ⟨piece, there, inside⟩
    exact ⟨_, List.mem_flatMap.2 ⟨piece, there, inside⟩, rfl⟩

theorem side_of_light {e : Expr} (light : e.light ok = true) {x : Entry} (part : .entry x ∈ e.parts) : x.Side := by
  have each := List.all_eq_true.1 light _ part
  cases x with
  | modification m => exact .inl ⟨m, rfl⟩
  | class_ c | symbol s | argument a => contradiction

theorem children_symbol (light : lib.Light ok) (s : SymbolId) (x : Entry) (member : x ∈ lib.children (.symbol s)) :
    (∃ c, (lib.symbolOf s).type = .instance_ c ∧ x = .class_ c) ∨
      (∃ c, (lib.symbolOf s).connectorType = some c ∧ x = .class_ c) ∨ x.Side := by
  obtain ⟨piece, there, part⟩ := (mem_children_iff _ _).1 member
  have exprs := light.symbols s
  rw [Symbol.light, Bool.and_eq_true, Expr.allLight_iff] at exprs
  simp only [Library.pieces, Symbol.pieces, List.mem_append] at there
  obtain ((typed | written) | changed) | connected := there
  · cases type : (lib.symbolOf s).type with
    | named r =>
      rw [type] at typed
      cases List.mem_singleton.1 typed
      simp [Piece.parts, Expr.parts] at part
    | instance_ c =>
      rw [type] at typed
      cases List.mem_singleton.1 typed
      cases List.mem_singleton.1 part
      exact .inl ⟨c, rfl, rfl⟩
    | connector name =>
      rw [type] at typed
      contradiction
  · obtain ⟨e, listed, rfl⟩ := List.mem_map.1 written
    exact .inr (.inr (side_of_light (exprs.2 e listed) part))
  · obtain ⟨m, _, rfl⟩ := List.mem_map.1 changed
    cases List.mem_singleton.1 part
    exact .inr (.inr (.inl ⟨m, rfl⟩))
  · obtain ⟨c, has, rfl⟩ := List.mem_map.1 connected
    cases List.mem_singleton.1 part
    exact .inr (.inl ⟨c, Option.mem_toList.1 has, rfl⟩)

theorem children_variable {t : SymbolId} (light : lib.Light ok) (variable_ : lib.Variable ok t) (x : Entry)
    (member : x ∈ lib.children (.symbol t)) : x.Side := by
  obtain ⟨c, type, _⟩ | ⟨c, has, _⟩ | side := children_symbol light t x member
  · obtain ⟨r, named, _⟩ := variable_.type
    rw [type] at named
    contradiction
  · rw [variable_.connectorType] at has
    contradiction
  · exact side

theorem children_side (light : lib.Light ok) (e : Entry) (side : e.Side) (x : Entry)
    (member : x ∈ lib.children e) : x.Side := by
  obtain ⟨piece, there, part⟩ := (mem_children_iff _ _).1 member
  obtain ⟨m, rfl⟩ | ⟨a, rfl⟩ := side
  · obtain ⟨b, _, rfl⟩ := List.mem_map.1 there
    cases List.mem_singleton.1 part
    exact .inr ⟨b, rfl⟩
  · have each := List.all_eq_true.1 (light.arguments a) piece there
    have inside := List.all_eq_true.1 each _ part
    cases x with
    | modification m => exact .inl ⟨m, rfl⟩
    | class_ c | symbol s | argument a => contradiction

theorem children_bundle {c : ClassId} (bundle : lib.Bundle ok c) (x : Entry) (member : x ∈ lib.children (.class_ c)) :
    (∃ s ∈ (lib.classOf c).symbols.values, x = .symbol s) ∨ x.Side := by
  obtain ⟨piece, there, part⟩ := (mem_children_iff _ _).1 member
  obtain ⟨i, _, rfl⟩ | ⟨s, has, rfl⟩ | ⟨m, rfl⟩ := bundle.pieces piece there
  · simp [Piece.parts, Expr.parts] at part
  · cases List.mem_singleton.1 part
    exact .inl ⟨s, has, rfl⟩
  · cases List.mem_singleton.1 part
    exact .inr (.inl ⟨m, rfl⟩)

theorem openChildren_subset (e x : Entry) (member : x ∈ lib.openChildren e) : x ∈ lib.children e := by
  unfold openChildren at member
  split at member
  · split at member
    · contradiction
    · exact member
  · exact member

theorem reachFrom_single (lib : Library) (children : Entry → List Entry) (inside : Entry → Prop)
    (closed : ∀ e, inside e → ∀ child ∈ children e, inside child) (e : Entry)
    (below : ∀ child ∈ children e, inside child) :
    ∃ before, lib.reachFrom children [e] = before ++ [e] ∧ ∀ x ∈ before, inside x := by
  refine ⟨((children e).foldl (visit children lib.size) []).reverse, ?_, fun x member => ?_⟩
  · simp [reachFrom, visit]
  · exact inside_of_mem_foldl inside _ (inside_of_mem_visit children inside closed _) _ below []
      (by simp) x (List.mem_reverse.1 member)

end Library

namespace Build

open Library

variable {ok : String → Bool} {lib : Library}

theorem ensures_forIn_concat {β γ : Type} (xs : List γ) (x : γ) (init : β)
    (f : γ → β → Build (ForInStep β)) {good : β → Library → Prop} {bad : Error → Library → Prop}
    (invariant : β → Library → Prop) (start : invariant init lib)
    (step : ∀ y ∈ xs, ∀ b now, invariant b now →
      (f y b).Ensures now (fun s next => ∃ c, s = .yield c ∧ invariant c next) bad)
    (last : ∀ b now, invariant b now → (f x b).Ensures now (fun s next => ∃ c, s = .yield c ∧ good c next) bad) :
    (forIn (xs ++ [x]) init f).Ensures lib good bad := by
  induction xs generalizing init lib with
  | nil =>
    rw [List.nil_append, List.forIn_cons, ensures_bind]
    refine (last init lib start).imp ?_
    rintro s next ⟨c, rfl, holds⟩
    show (forIn [] c f).Ensures next good bad
    rw [List.forIn_nil]
    exact (ensures_pure c).2 holds
  | cons y ys ih =>
    rw [List.cons_append, List.forIn_cons, ensures_bind]
    refine (step y List.mem_cons_self init lib start).imp ?_
    rintro s next ⟨c, rfl, holds⟩
    exact ih c holds fun z member => step z (List.mem_cons_of_mem _ member)

theorem qualifyEntries_symbol (s : Surroundings) (t : SymbolId) (inside : Entry → Prop)
    (closed : ∀ e, inside e → ∀ child ∈ lib.children e, inside child)
    (below : ∀ child ∈ lib.children (.symbol t), inside child)
    (invariant : Library → Prop) (start : invariant lib) {good : Unit → Library → Prop}
    (step : ∀ e, inside e → ∀ now, invariant now → (mapEntry (qualifying s) e : Build Unit).Ensures
      now (fun _ next => invariant next) anyhow)
    (finish : ∀ now, invariant now → ∀ f : Symbol → Symbol,
      f (now.symbolOf t) = (now.symbolOf t).qualify s → good () (now.modifySymbol t f)) :
    (qualifyEntries s [.symbol t]).Ensures lib good anyhow := by
  obtain ⟨before, list, all⟩ := reachFrom_single lib lib.openChildren inside
    (fun e holds child member => closed e holds child (openChildren_subset e child member))
    (.symbol t) (fun child member => below child (openChildren_subset _ child member))
  rw [qualifyEntries, bind_get, list, ensures_bind]
  refine ensures_forIn_concat before (.symbol t) _ _ (fun _ now => invariant now) start ?_ ?_
  · rintro e member ⟨⟩ now holds
    have goes : (do mapEntry (qualifying s) e; pure (ForInStep.yield PUnit.unit) :
        Build (ForInStep PUnit)).Ensures now (fun r next => ∃ c, r = .yield c ∧ invariant next)
        anyhow :=
      (step e (all e member) now holds).bind fun _ _ holds => .pure ⟨_, rfl, holds⟩
    split
    · split
      · exact goes
      · exact .pure ⟨_, rfl, holds⟩
    · exact goes
  · rintro ⟨⟩ now holds
    rw [ensures_bind]
    refine mapEntry_symbol s t fun f same => ?_
    exact .pure ⟨_, rfl, .pure (finish now holds f same)⟩

theorem mapEntry_side (s : Surroundings) (e : Entry) (side : e.Side) (light : lib.Light ok) :
    (mapEntry (qualifying s) e : Build Unit).Ensures lib (fun _ next => next.Light ok ∧
      next.classes = lib.classes ∧ next.symbols = lib.symbols) anyhow := by
  obtain ⟨m, rfl⟩ | ⟨a, rfl⟩ := side
  · exact .pure ⟨light, rfl, rfl⟩
  · exact mapEntry_argument s a light fun f new => ⟨light.modifyArgument a f new, rfl, rfl⟩

structure Copied (ok : String → Bool) (s : Surroundings) (lib : Library) (t new : SymbolId)
    (next : Library) : Prop where
  light : next.Light ok
  steady : lib.Steady (fun _ => False) next
  fresh : new = lib.nextSymbol
  name : (next.symbolOf new).name = (lib.symbolOf t).name
  dimensions : (next.symbolOf new).dimensions = s.rows (lib.symbolOf t).dimensions

section Copied

variable (dotted : Dotted ok) (s : Surroundings) (pointed : s.Pointed)

include dotted pointed

theorem qualifySymbol_variable (t : SymbolId) (light : lib.Light ok) (variable_ : lib.Variable ok t) :
    (qualifySymbol s t).Ensures lib (fun new next => Copied ok s lib t new next ∧
      next.Variable ok new) anyhow := by
  rw [qualifySymbol, ensures_bind, copySymbol, bind_get, ensures_bind]
  refine (Copy.copySymbol_variable t {} lib light rfl variable_).imp ?_
  rintro ⟨_, memo⟩ now ⟨light, classes, steady, size, rfl, same, _, _⟩
  rw [ensures_pure, ensures_bind]
  have known : lib.nextSymbol.index < now.symbols.size := by
    rw [size]
    exact Nat.lt_succ_self _
  have copy : now.Variable ok lib.nextSymbol := variable_.of_skeleton known same
  refine qualifyEntries_symbol s lib.nextSymbol Entry.Side (children_side light) ?_
    (fun next => next.Light ok ∧ next.classes = now.classes ∧ next.symbols = now.symbols)
    ⟨light, rfl, rfl⟩ ?_ ?_
  · exact children_variable light copy
  · rintro e side mid ⟨light, classes, symbols⟩
    refine (mapEntry_side s e side light).imp fun _ next ⟨light, classes', symbols'⟩ => ?_
    exact ⟨light, classes'.trans classes, symbols'.trans symbols⟩
  · rintro mid ⟨light, classes', symbols⟩ f qualified
    have old : mid.symbolOf lib.nextSymbol = now.symbolOf lib.nextSymbol := by
      rw [Library.symbolOf, Library.symbolOf, symbols]
    have there : lib.nextSymbol.index < mid.symbols.size := by
      rw [symbols]
      exact known
    have self : (mid.modifySymbol lib.nextSymbol f).symbolOf lib.nextSymbol =
        (now.symbolOf lib.nextSymbol).qualify s := by
      rw [symbolOf_modifySymbol_self mid _ f there, qualified, old]
    refine .pure ⟨⟨light.modifySymbol _ f ?_, ?_, rfl, ?_, ?_⟩, ?_⟩
    · rw [qualified]
      exact Symbol.light_qualify s _ (light.symbols _)
    · exact (steady.trans (.of_eq classes' symbols)).modifyNew _ le_rfl f
    · rw [self]
      exact congrArg Skeleton.name same
    · rw [self]
      exact congrArg s.rows (congrArg Skeleton.dimensions same)
    · refine copy.qualify dotted s pointed (Nat.le_of_eq ?_) self
      rw [symbols_size_modifySymbol, symbols]

theorem qualifySymbol_socket (t : SymbolId) (c : ClassId) (light : lib.Light ok) (socket : lib.Socket ok t c) :
    (qualifySymbol s t).Ensures lib (fun new next => Copied ok s lib t new next ∧
      ∃ e, e.New lib ∧ next.Socket ok new e ∧ (next.classOf e).origin = (lib.classOf c).origin ∧
        ∀ m ∈ (next.classOf e).symbols.values, new.index < m.index) anyhow := by
  rw [qualifySymbol, ensures_bind, copySymbol, bind_get, ensures_bind]
  refine (Copy.copySymbol_socket t c lib light socket).imp ?_
  rintro ⟨_, memo⟩ now ⟨light, steady, rfl, name, dimensions, e, later, copy, made, behind⟩
  rw [ensures_pure, ensures_bind]
  have apart : ∀ m ∈ (now.classOf e).symbols.values, m ≠ lib.nextSymbol := by
    rintro m member rfl
    exact lt_irrefl _ (behind _ member)
  refine qualifyEntries_symbol s lib.nextSymbol (fun x => x.Side ∨ x = .class_ e ∨
    ∃ m ∈ (now.classOf e).symbols.values, x = .symbol m) ?_ ?_
    (fun next => next.Light ok ∧ lib.Steady never next ∧ next.Bundle ok e ∧
      (next.classOf e).origin = (now.classOf e).origin ∧
      (next.classOf e).symbols = (now.classOf e).symbols ∧
      next.symbols.size = now.symbols.size ∧
      next.symbolOf lib.nextSymbol = now.symbolOf lib.nextSymbol)
    ⟨light, steady, copy.bundle, rfl, rfl, rfl, rfl⟩ ?_ ?_
  · rintro x (side | rfl | ⟨m, member, rfl⟩) child below
    · exact .inl (children_side light x side child below)
    · exact (children_bundle copy.bundle child below).elim (fun has => .inr (.inr has)) .inl
    · exact .inl (children_variable light (copy.bundle.members m member) child below)
  · intro child below
    obtain ⟨d, type, _⟩ | ⟨d, has, rfl⟩ | side := children_symbol light _ child below
    · obtain ⟨name, connector⟩ := copy.type
      rw [type] at connector
      contradiction
    · rw [copy.connectorType] at has
      cases has
      exact .inr (.inl rfl)
    · exact .inl side
  · rintro x inside mid ⟨light, steady, bundle, origin, table, size, same⟩
    obtain side | rfl | ⟨m, member, rfl⟩ := inside
    · refine (mapEntry_side s x side light).imp fun _ next ⟨light, classes, symbols⟩ => ?_
      have further : mid.Steady never next := .of_eq classes symbols
      have sameClass := further.classOf e bundle.known
      refine ⟨light, steady.trans further, bundle.later further fun _ _ => id, ?_, ?_, ?_, ?_⟩
      · rw [sameClass, origin]
      · rw [sameClass, table]
      · rw [symbols, size]
      · rw [← same, Library.symbolOf, Library.symbolOf, symbols]
    · refine mapEntry_silent s e bundle.extends_ bundle.silent fun imports => ?_
      have self := (classOf_modifyClass_self mid e · bundle.known)
      refine ⟨light.modifyClass e _ (light.classes e), steady.modifyClass e later _,
        ⟨?_, ?_, ?_, ?_, ?_, ?_, ?_, ?_⟩, ?_, ?_, size, same⟩
      · simpa using bundle.known
      all_goals rw [self]
      · exact bundle.kind
      · exact bundle.classes
      · exact bundle.functions
      · exact ⟨rfl, rfl, rfl, rfl, rfl⟩
      · exact bundle.unique
      · exact fun m member => (bundle.members m member).modifyClass _ _
      · exact origin
      · exact table
    · refine mapEntry_symbol s m fun f qualified => ?_
      have behindCopy : lib.nextSymbol.index < m.index := behind m member
      have other := apart m member
      rw [← table] at member
      have variable_ := bundle.members m member
      have change := mid.steady_modifySymbol m f
      have size' := symbols_size_modifySymbol mid m f
      have self := symbolOf_modifySymbol_self mid m f variable_.known
      refine ⟨light.modifySymbol m f ?_, steady.modifyNew m behindCopy.le f,
        { bundle with members := fun n listed => ?_ }, origin, table, size'.trans size, ?_⟩
      · rw [qualified]
        exact Symbol.light_qualify s _ (light.symbols m)
      · by_cases at_ : n = m
        · subst at_
          exact variable_.qualify dotted s pointed (Nat.le_of_eq size'.symm) (self.trans qualified)
        · exact (bundle.members n listed).later change at_
      · rw [symbolOf_modifySymbol_ne mid m _ f other, same]
  · rintro mid ⟨light, steady, bundle, origin, table, size, same⟩ f qualified
    have known : lib.nextSymbol.index < mid.symbols.size := by
      rw [size]
      exact copy.known
    have change := mid.steady_modifySymbol lib.nextSymbol f
    have whole := steady.modifyNew lib.nextSymbol le_rfl f
    have self : (mid.modifySymbol lib.nextSymbol f).symbolOf lib.nextSymbol =
        (now.symbolOf lib.nextSymbol).qualify s := by
      rw [symbolOf_modifySymbol_self mid _ f known, qualified, same]
    have sameClass := change.classOf e bundle.known
    have sameOrigin : ((mid.modifySymbol lib.nextSymbol f).classOf e).origin = (lib.classOf c).origin := by
      rw [sameClass, origin, made]
    refine .pure ⟨⟨light.modifySymbol _ f ?_, whole, rfl, ?_, ?_⟩, e, later,
      ⟨?_, ?_, ?_, ?_, ?_, ?_, ?_⟩, sameOrigin, ?_⟩
    · rw [qualified]
      exact Symbol.light_qualify s _ (light.symbols _)
    · rw [self]
      exact name
    · rw [self]
      exact congrArg s.rows dimensions
    · simpa using known
    · obtain ⟨connector, type⟩ := copy.type
      rw [self]
      exact ⟨connector, by rw [Symbol.qualify, type]; rfl⟩
    · rw [self]
      intro x member
      obtain ⟨d, there, rfl⟩ := s.mem_rows _ x member
      exact d.bare_qualify s (copy.bare d there)
    · rw [self]
      exact copy.connectorType
    · refine bundle.later change fun m member at_ => ?_
      rw [table] at member
      exact apart m member at_
    · rw [sameOrigin]
      exact socket.origin.later whole fun _ _ => id
    · rw [sameOrigin, whole.classOf _ socket.origin.known]
      exact socket.parent
    · rw [sameClass, table]
      exact behind

end Copied

end Build

end Modelica
