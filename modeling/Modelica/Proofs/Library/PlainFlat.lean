import Modelica.Proofs.Expr.Light
import Modelica.Proofs.Expr.Mapping
import Modelica.Proofs.Library.PlainInstance

set_option autoImplicit false

namespace Modelica.Build

open Library OrderedMap

variable {lib : Library}

variable {bad : Error → Library → Prop} {new entries old : List (String × SymbolId)}
  {next now mid : Library} {d : ClassDef} {flat k : ClassId}

theorem copyModification_of_empty (lib : Library) (fuel : Nat) (m : ModificationId)
    (memo : Copy.Memo) (new : memo.modifications.lookup m = none)
    (known : m.In lib) (empty : (lib.modificationOf m).arguments = [])
    {good : ModificationId × Copy.Memo → Library → Prop}
    (holds : ∀ memo', good (lib.nextModification, memo') (lib.pushModification [])) :
    Ensures ((Copy.copyModification (fuel + 1) m).run memo) lib good bad := by
  have still : (lib.pushModification []).modificationOf m = lib.modificationOf m :=
    modificationOf_pushModification_ne lib m [] known.ne
  unfold Copy.copyModification
  simp only [StateT.run_bind, StateT.run_get, ensures_bind, ensures_pure, new, Copy.lift,
    StateT.run_lift, ensures_addModification, Copy.noteModification, StateT.run_modify,
    ensures_modificationOf, still, empty, Copy.copyList, StateT.run_pure,
    ensures_updateModification]
  rw [modifyModification_eq_self _ _ _ (by simp [modificationOf_pushModification_self])]
  exact holds _

def IsCopy (lib : Library) (t : SymbolId) (new : SymbolId) (next : Library) : Prop :=
  lib.Later next ∧ lib.symbols.size ≤ new.index ∧ new.index < next.symbols.size ∧
    next.Idle new ∧ (next.symbolOf new).Alike (lib.symbolOf t)

theorem IsCopy.member {t new : SymbolId} (copy : IsCopy lib t new next) {keys : List String}
    {name : String} (member : lib.IsMember keys name t) : next.IsMember keys name new :=
  member.of_alike copy.2.2.1 copy.2.2.2.2 copy.2.2.2.1

theorem isCopy_of_alike (later : lib.Later now) (t new : SymbolId)
    (fresh : new.New lib) (known : new.In now) (d : Symbol)
    (alike : d.Alike (lib.symbolOf t)) (idle : ∀ m, d.modification = some m →
      m.In now ∧ (now.modificationOf m).arguments = []) :
    IsCopy lib t new (now.modifySymbol new fun _ => d) := by
  have self := symbolOf_modifySymbol_self now new (fun _ => d) known
  refine ⟨later.modifySymbol new _ (fun old => by omega), fresh, ?_, ?_, ?_⟩
  · simpa using known
  · unfold Idle
    rw [self]
    exact idle
  · rw [self]
    exact alike

theorem copySymbol_of_member (keys : List String) (name : String) (t : SymbolId)
    (member : lib.IsMember keys name t) : (copySymbol t).Ensures lib (IsCopy lib t) bad := by
  obtain ⟨r, type, _, bareType, _⟩ := member.type
  have bare : ∀ e ∈ (lib.symbolOf t).exprs, e.bare = true := member.bare
  obtain ⟨rows, start, min, max, nominal, value, fixed, unit, free, initialGuess⟩ :
      (∀ e ∈ (lib.symbolOf t).dimensions.flatten, e.bare = true) ∧
        (lib.symbolOf t).start.bare = true ∧ (lib.symbolOf t).min.bare = true ∧
        (lib.symbolOf t).max.bare = true ∧ (lib.symbolOf t).nominal.bare = true ∧
        (lib.symbolOf t).value.bare = true ∧ (lib.symbolOf t).fixed.bare = true ∧
        (lib.symbolOf t).unit.bare = true ∧ (lib.symbolOf t).free.bare = true ∧
        (lib.symbolOf t).initialGuess.bare = true := by
    simpa [Symbol.exprs, or_imp, forall_and] using bare
  have known : lib.nextSymbol.index < (lib.pushSymbol (lib.symbolOf t)).symbols.size := nextSymbol_lt ..
  have later := (Later.refl lib).pushSymbol (lib.symbolOf t)
  have keeps : ∀ (n : Nat) (r : ComponentRef),
      (⟨Copy.copySymbol n, Copy.copyModification n, fun r => pure (.function r)⟩ :
        Renaming (StateT Copy.Memo (EStateM Error Library))).call r = pure (.function r) :=
    fun _ _ => rfl
  simp only [copySymbol, ensures_bind, ensures_get, Copy.fuelFor]
  unfold Copy.copySymbol
  simp only [StateT.run_bind, StateT.run_get, ensures_bind, ensures_pure, List.lookup_nil,
    Copy.lift, StateT.run_lift, ensures_symbolOf, ensures_addSymbol, type, Copy.noteSymbol, StateT.run_modify,
    r.rename_of_bare _ (keeps _) bareType, rows_of_bare _ (keeps _) _ rows,
    Expr.rename_of_bare _ (keeps _), start, min, max, nominal, value, fixed, unit, free,
    initialGuess, member.connectorType, Copy.copyOption, pure_bind]
  split
  · simp only [StateT.run_pure, ensures_pure, ensures_updateSymbol]
    refine isCopy_of_alike later t lib.nextSymbol le_rfl known _ ?_ ?_
    · simp only [Symbol.Alike, ← type, ← member.connectorType]
    · rintro _ ⟨⟩
  · next m has =>
    obtain ⟨there, empty⟩ := member.idle m has
    simp only [StateT.run_map, ensures_map]
    refine copyModification_of_empty (lib.pushSymbol (lib.symbolOf t)) _ m
      { symbols := [(t, lib.nextSymbol)] } rfl there empty ?_
    intro memo
    simp only [StateT.run_pure, ensures_pure, ensures_updateSymbol]
    refine isCopy_of_alike (later.pushModification []) t lib.nextSymbol le_rfl known _ ?_ ?_
    · simp only [Symbol.Alike, ← type, ← member.connectorType]
    · rintro n has
      obtain rfl := Option.some_inj.1 has
      refine ⟨?_, congrArg Modification.arguments (modificationOf_pushModification_self _ [])⟩
      exact nextModification_lt ..

theorem qualifying_eq (s : Surroundings) : qualifying s = s.mapping.still := rfl

def SameVariable (lib : Library) (t : SymbolId) (new : SymbolId) (next : Library) : Prop :=
  (next.symbolOf new).name = (lib.symbolOf t).name ∧
    (next.symbolOf new).type = (lib.symbolOf t).type ∧
    (next.symbolOf new).prefixes = (lib.symbolOf t).prefixes

theorem SameVariable.of_alike {t new : SymbolId} (alike : (next.symbolOf new).Alike (lib.symbolOf t)) :
    SameVariable lib t new next :=
  ⟨alike.apply Symbol.name fun _ => rfl, alike.apply Symbol.type fun _ => rfl, alike.apply Symbol.prefixes fun _ => rfl⟩

theorem SameVariable.trans {t s new : SymbolId} (first : SameVariable lib t s mid) (second : SameVariable mid s new next) :
    SameVariable lib t new next :=
  ⟨second.1.trans first.1, second.2.1.trans first.2.1, second.2.2.trans first.2.2⟩

theorem qualifyEntries_of_copy (s : Surroundings) (top : s.before = "") (t new : SymbolId)
    (keys : List String) (name : String) (member : lib.IsMember keys name t)
    (known : s.known = fun n => keys.contains n) (copy : IsCopy lib t new now) :
    (qualifyEntries s [.symbol new]).Ensures now (fun _ next => lib.Later next ∧
      new.In next ∧ SameVariable lib t new next) bad := by
  simp only [qualifyEntries, ensures_bind, ensures_get]
  have inside : ∀ e ∈ now.reachFrom now.openChildren [.symbol new],
      e = .symbol new ∨ ∃ m, e = .modification m ∧ (now.modificationOf m).arguments = [] := by
    refine inside_of_mem_reachFrom _ _ ?_ now _ fun e start => .inl (List.mem_singleton.1 start)
    rintro e (rfl | ⟨m, rfl, empty⟩) child below
    · obtain ⟨m, rfl, _, empty⟩ := children_of_member keys name new (copy.member member) child below
      exact .inr ⟨m, rfl, empty⟩
    · change child ∈ now.children (.modification m) at below
      rw [children_of_empty m empty] at below
      contradiction
  refine ensures_forIn _ _ _ (fun _ _ next => lib.Later next ∧
     new.In next ∧ SameVariable lib t new next) ?_ ?_ ?_
  · exact ⟨copy.1, copy.2.2.1, .of_alike copy.2.2.2.2⟩
  · rintro done e rest ⟨⟩ mid all ⟨later, there, same⟩
    obtain ⟨r, type, _, _, fixed⟩ := member.type
    obtain rfl | ⟨m, rfl, _⟩ := inside e (by rw [all]; simp)
    · dsimp only
      have stays : r.qualify s = r := by
        refine r.qualify_eq_self s top (fixed.imp id fun absent => ?_)
        rw [known]
        simpa using absent
      simp only [mapEntry, qualifying_eq, ensures_bind, ensures_liftM, ensures_symbolOf, same.2.1,
        type, Mapping.still_rows, Mapping.still_expr, Mapping.still_ref, ensures_pure,
        ensures_updateSymbol]
      refine ⟨later.modifySymbol new _ (fun old => absurd copy.2.1 (by omega)), ?_, ?_⟩
      · simpa using there
      · unfold SameVariable
        rw [symbolOf_modifySymbol_self mid new _ there]
        refine ⟨same.1, ?_, same.2.2⟩
        simp [Surroundings.mapping, stays, type]
    · simp only [mapEntry, ensures_bind, ensures_pure]
      exact ⟨later, there, same⟩
  · intro _ last holds
    exact .pure holds
theorem qualifySymbol_of_member (s : Surroundings) (top : s.before = "") (keys : List String)
    (known : s.known = fun n => keys.contains n) (name : String) (t : SymbolId)
    (member : lib.IsMember keys name t) :
    (qualifySymbol s t).Ensures lib (fun new next => lib.Later next ∧
      new.In next ∧ SameVariable lib t new next) bad := by
  simp only [qualifySymbol, ensures_bind, ensures_pure]
  refine (copySymbol_of_member keys name t member).imp ?_
  intro new next copy
  exact qualifyEntries_of_copy s top t new keys name member known copy

theorem settleSymbol_of_member (scope : ClassId) (keys : List String) (name : String)
    (s : SymbolId) (member : lib.IsMember keys name s) :
    (settleSymbol scope s).Ensures lib (fun _ next => lib.Later next) bad := by
  obtain ⟨r, type, _⟩ := member.type
  simp only [settleSymbol, ensures_bind, ensures_symbolOf, type]
  cases has : (lib.symbolOf s).modification with
  | none => exact .pure (.refl lib)
  | some m =>
    obtain ⟨_, empty⟩ := member.idle m has
    simp only [ensures_bind, ensures_argumentsOf, empty, List.isEmpty_nil, if_true, ensures_updateSymbol]
    refine (Later.refl lib).modifySymbol s _ fun _ => ⟨rfl, ?_⟩
    rintro _ ⟨⟩

structure IsFlat (now : Library) (d : ClassDef) (next : Library) (flat : ClassId)
    (entries : List (String × SymbolId)) : Prop where
  later : now.Later next
  new : now.classes.size ≤ flat.index
  known : flat.index < next.classes.size
  shape : next.classOf flat =
    { name := d.name
      type := d.type
      annotated := d.annotated
      optimization := d.optimization
      symbols := ⟨entries⟩
      origin := flat }

theorem IsFlat.after (isFlat : IsFlat now d mid flat entries) (after : mid.Later next) :
    IsFlat now d next flat entries :=
  ⟨isFlat.later.trans after, isFlat.new, isFlat.known.trans_le after.moreClasses,
    (after.classOf flat isFlat.known).trans isFlat.shape⟩

theorem IsFlat.insert (isFlat : IsFlat now d mid flat entries) (name : String) (s : SymbolId) :
    IsFlat now d (mid.modifyClass flat fun f => { f with symbols := f.symbols.insert name s }) flat
      (OrderedMap.insertEntry name s entries) where
  later := isFlat.later.modifyClass flat isFlat.new _
  new := isFlat.new
  known := by simpa using isFlat.known
  shape := by
    rw [classOf_modifyClass_self mid flat _ isFlat.known, isFlat.shape]
    rfl

theorem IsFlat.plain (plain : now.Plain k)
    (isFlat : IsFlat now (now.classOf k) next flat (now.classOf k).symbols.entries) : next.Plain flat := by
  constructor
  case known => exact isFlat.known
  all_goals rw [isFlat.shape]
  case unique => exact plain.unique
  case members => exact fun e member => IsMember.later isFlat.later _ _ _ (plain.members e member)
  case annotated => exact fun m has => (plain.annotated m has).grow isFlat.later
  case optimization => exact fun m has => (plain.optimization m has).grow isFlat.later
  all_goals rfl

theorem settle_of_plain (plain : now.Plain k)
    (isFlat : IsFlat now (now.classOf k) next flat (now.classOf k).symbols.entries) :
    (settle flat k).Returns next fun _ last =>
      IsFlat now (now.classOf k) last flat (now.classOf k).symbols.entries := by
  have inside : ∀ e ∈ next.reachFrom next.children [.class_ flat],
      e = .class_ flat ∨ (∃ entry ∈ (now.classOf k).symbols.entries, e = .symbol entry.2) ∨ ∃ n, next.Shallow n e := by
    refine inside_of_mem_reachFrom _ _ ?_ next _ fun e start => .inl (List.mem_singleton.1 start)
    rintro e (rfl | ⟨entry, member, rfl⟩ | ⟨n, shallow⟩) child below
    · obtain ⟨entry, member, rfl⟩ | shallow | ⟨m, role, _⟩ := children_of_plain (isFlat.plain plain) child below
      · rw [isFlat.shape] at member
        exact .inr (.inl ⟨entry, member, rfl⟩)
      · exact .inr (.inr ⟨_, shallow⟩)
      · rw [isFlat.shape] at role
        contradiction
    · obtain ⟨m, rfl, known, empty⟩ := children_of_member _ _ _
        (IsMember.later isFlat.later _ _ _ (plain.members entry member)) child below
      exact .inr (.inr ⟨1, shallow_of_empty next 0 m known empty⟩)
    · obtain ⟨_, m, rfl, deep⟩ := below_of_shallow n e shallow
      exact .inr (.inr ⟨m, deep child ((mem_children _ _).1 below)⟩)
  simp only [Returns, settle, ensures_bind, ensures_get]
  refine ensures_forIn _ _ _ (fun _ _ mid => IsFlat now (now.classOf k) mid flat (now.classOf k).symbols.entries)
    isFlat ?_ ?_
  · rintro done e rest ⟨⟩ mid all isFlat
    obtain rfl | ⟨entry, member, rfl⟩ | ⟨n, shallow⟩ := inside e (by rw [all]; simp)
    · simp only [ensures_bind, ensures_classOf, isFlat.shape, ensures_pure]
      exact isFlat
    · simp only [ensures_bind, ensures_pure]
      have there := IsMember.later isFlat.later _ _ _ (plain.members entry member)
      refine (settleSymbol_of_member k _ _ entry.2 there).imp ?_
      exact fun _ _ after => isFlat.after after
    · obtain ⟨m, rfl⟩ | ⟨a, rfl⟩ := cases_of_shallow n e shallow <;>
        exact .pure isFlat
  · exact fun _ _ holds => .pure holds

theorem flattenEquations_of_plain (plain : now.Plain k) (entries : List (String × SymbolId))
    (isFlat : IsFlat now (now.classOf k) mid flat entries) (s : Surroundings) (calls : Calls) :
    (flattenEquations k flat s).run calls mid = .ok ((), calls) mid := by
  have still : mid.modifyClass flat (fun f =>
      { f with
        initialEquations := f.initialEquations ++ []
        statements := f.statements ++ []
        initialStatements := f.initialStatements ++ [] }) = mid :=
    mid.modifyClass_eq_self flat _ (by simp only [List.append_nil])
  refine Returns.eq ?_
  simp only [Returns, flattenEquations, StateT.run_bind, StateT.run_lift, ensures_bind,
    ensures_classOf, ensures_pure, isFlat.later.classOf k plain.known, plain.equations,
    plain.constraints, plain.initialEquations, plain.statements, plain.initialStatements,
    List.forIn_nil, List.mapM_nil, StateT.run_pure, ensures_updateClass, still, and_self]

def AreCopies (now : Library) (old : List (String × SymbolId)) (next : Library)
    (new : List (String × SymbolId)) : Prop :=
  List.Forall₂ (fun e e' => e'.1 = e.1 ∧ e'.2.index < next.symbols.size ∧
    SameVariable now e.2 e'.2 next) old new

theorem AreCopies.after (copies : AreCopies now old mid new) (after : mid.Later next) : AreCopies now old next new :=
  copies.imp fun _ _ ⟨key, known, same⟩ => ⟨key, known.trans_le after.moreSymbols, same.trans (.of_alike (after.symbolOf _ known))⟩

theorem AreCopies.keys (copies : AreCopies now old next new) : new.map Prod.fst = old.map Prod.fst := by
  induction copies with
  | nil => rfl
  | cons first _ ih => rw [List.map_cons, List.map_cons, first.1, ih]

theorem AreCopies.of_later (copies : AreCopies mid old next new) (later : now.Later mid)
    (known : ∀ e ∈ old, e.2.index < now.symbols.size) : AreCopies now old next new := by
  unfold AreCopies at *
  induction copies with
  | nil => exact .nil
  | cons first _ ih =>
    obtain ⟨key, there, same⟩ := first
    exact .cons ⟨key, there, .trans (.of_alike (later.symbolOf _ (known _ List.mem_cons_self))) same⟩
      (ih fun e member => known e (List.mem_cons_of_mem _ member))

theorem flattenInstance_of_plain (plain : now.Plain k) (fuel : Nat) :
    (flattenInstance (fuel + 1) k "").Returns now fun flat next =>
      now.Later next ∧ AreCopies now (now.classOf k).symbols.entries next (next.classOf flat).symbols.entries := by
  unfold flattenInstance Returns
  simp only [ensures_bind, ensures_classOf, ensures_addClass, if_true]
  refine ensures_forIn _ _ _ (fun done _ mid => IsFlat now (now.classOf k) mid now.nextClass done) ?_ ?_ ?_
  · refine ⟨(Later.refl now).pushClass _, le_rfl, ?_, classOf_pushClass_self now _⟩
    exact nextClass_lt ..
  · rintro done ⟨name, s⟩ rest ⟨⟩ mid all isFlat
    have member : now.IsMember _ name s := plain.members (name, s) (by rw [all]; simp)
    have there := IsMember.later isFlat.later _ _ _ member
    have same : "" ++ name = (mid.symbolOf s).name := by rw [there.name, String.empty_append]
    have absent : name ∉ done.map Prod.fst := not_mem_done plain.unique all
    obtain ⟨r, type, _⟩ := there.type
    dsimp only
    simp only [addComponent, ensures_bind, ensures_updateSymbol]
    rw [mid.modifySymbol_eq_self s _ (by simp only [same, if_true])]
    simp only [ensures_symbolOf, type, ensures_bind, addFlatSymbol, ensures_updateClass, there.name, ensures_pure]
    have next := isFlat.insert name s
    have last := insertEntry_append name s done [] absent
    rw [List.append_nil] at last
    rwa [last] at next
  · rintro ⟨⟩ mid isFlat
    refine Ensures.imp (settle_of_plain plain isFlat) ?_
    rintro ⟨⟩ mid isFlat
    have table : (mid.classOf now.nextClass).symbols = (now.classOf k).symbols := by
      rw [isFlat.shape]
    simp only [qualifySymbols, ensures_bind, ensures_classOf, table]
    refine ensures_forIn _ _ _ (fun done _ mid => ∃ new, IsFlat now (now.classOf k) mid now.nextClass
        (new ++ (now.classOf k).symbols.entries.drop done.length) ∧ AreCopies now done mid new)
      ?_ ?_ ?_
    · exact ⟨[], isFlat, .nil⟩
    · rintro done ⟨name, t⟩ rest ⟨⟩ mid all ⟨new, isFlat, copies⟩
      have member : now.IsMember _ name t := plain.members (name, t) (by rw [all]; simp)
      have absent : name ∉ new.map Prod.fst := by
        rw [copies.keys]
        exact not_mem_done plain.unique all
      simp only [ensures_bind, ensures_updateClass, ensures_pure]
      have there := IsMember.later isFlat.later _ _ _ member
      refine Ensures.imp (qualifySymbol_of_member _ rfl _ rfl name t there) ?_
      rintro fresh next ⟨after, known, same⟩
      refine ⟨new ++ [(name, fresh)], ?_, ?_⟩
      · have inserted := (isFlat.after after).insert name fresh
        rw [insertEntry_append name fresh new _ absent] at inserted
        simpa [all, OrderedMap.insertEntry] using inserted
      · have same := SameVariable.trans (.of_alike (isFlat.later.symbolOf t member.known)) same
        exact List.rel_append (copies.after after) (.cons ⟨rfl, known, same⟩ .nil)
    · rintro ⟨⟩ mid ⟨new, isFlat, copies⟩
      rw [List.drop_length, List.append_nil] at isFlat
      rw [ensures_pure, ensures_of_eq (flattenEquations_of_plain plain new isFlat _ _)]
      have still : mid.modifyClass now.nextClass (fun f => { f with functions := f.functions.union .empty }) = mid :=
        mid.modifyClass_eq_self _ _ rfl
      simp only [addFunctions, entries_empty, List.forIn_nil, ensures_bind, ensures_pure, ensures_updateClass, still]
      refine ⟨isFlat.later, ?_⟩
      rw [isFlat.shape]
      exact copies

theorem flattenClass_of_plain {lib : Library} {c : ClassId} (plain : lib.Plain c)
    (definition : (lib.classOf c).role = .definition) (type : (lib.classOf c).type ≠ "__builtin")
    (fuel : Nat) :
    (flattenClass (fuel + 2) c).Returns lib fun flat next =>
      lib.Later next ∧ AreCopies lib (lib.classOf c).symbols.entries next (next.classOf flat).symbols.entries := by
  unfold flattenClass Returns
  simp only [ensures_bind, depthLimit, ensures_get, ensures_pure, ensures_classOf]
  refine Ensures.imp (instantiate_of_plain plain definition type _) ?_
  intro k now tree
  obtain ⟨m, role, known, empty⟩ := tree.environment
  have quiet : now.Shallow now.size (.modification m) :=
    Shallow.mono now 1 _ (size_pos now m known) _ (shallow_of_empty now 0 m known empty)
  refine Ensures.imp (pullConstants_of_plain tree.plain m role quiet) ?_
  rintro _ _ rfl
  refine Ensures.imp (flattenInstance_of_plain tree.plain fuel) ?_
  rintro flat next ⟨after, copies⟩
  refine ⟨tree.later.trans after, ?_⟩
  rw [tree.symbols] at copies
  exact copies.of_later tree.later fun e member => (plain.members e member).known

end Modelica.Build
