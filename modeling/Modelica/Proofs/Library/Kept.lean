import Modelica.Proofs.Library.Copying

set_option autoImplicit false

namespace Modelica

open OrderedMap

namespace Argument

-- The argument redeclares nothing and names no component behind a point, so it stays as it is until it is
-- applied.
structure Plain (a : Argument) : Prop where
  redeclare : a.redeclare = false
  value : ∀ r changes, a.value = .element r changes → r.child = none

-- The argument may have been handed on to components behind its first point, and where it is written may have
-- been noted.
structure Follows (a b : Argument) : Prop where
  redeclare : b.redeclare = a.redeclare
  scope : a.scope = none ∨ b.scope = a.scope
  value : b.value = a.value ∨ ∃ r c rest changes, a.value = .element r changes ∧
    r.child = some c ∧ b.value = .element rest changes

namespace Follows

variable {a b c : Argument}

theorem refl (a : Argument) : a.Follows a := ⟨rfl, .inr rfl, .inl rfl⟩

theorem trans (first : a.Follows b) (second : b.Follows c) : a.Follows c := by
  refine ⟨second.redeclare.trans first.redeclare, ?_, ?_⟩
  · obtain none | same := first.scope
    · exact .inl none
    · obtain none | further := second.scope
      · exact .inl (same ▸ none)
      · exact .inr (further.trans same)
  · obtain same | ⟨r, d, rest, changes, has, child, handed⟩ := first.value
    · rw [← same]
      exact second.value
    · obtain same | ⟨_, _, rest', _, has', _, handed'⟩ := second.value
      · exact .inr ⟨r, d, rest, changes, has, child, same.trans handed⟩
      · rw [handed] at has'
        cases has'
        exact .inr ⟨r, d, rest', changes, has, child, handed'⟩

theorem value_eq (follows : a.Follows b)
    (plain : ∀ r changes, a.value = .element r changes → r.child = none) : b.value = a.value := by
  obtain same | ⟨r, _, _, changes, has, child, _⟩ := follows.value
  · exact same
  · rw [plain r changes has] at child
    contradiction

end Follows

end Argument

namespace Library

def waiting (lib : Library) (k : ClassId) : List ArgumentId :=
  match (lib.classOf k).role with
  | .instance_ environment => (lib.modificationOf environment).arguments
  | _ => []

structure Kept (touched : SymbolId → Prop) (lib next : Library) : Prop where
  moreClasses : lib.classes.size ≤ next.classes.size
  moreSymbols : lib.symbols.size ≤ next.symbols.size
  classOf : ∀ c, c.index < lib.classes.size →
    ∃ origin, next.classOf c = { lib.classOf c with origin := origin }
  symbolOf : ∀ s, s.index < lib.symbols.size → ¬ touched s →
    (next.symbolOf s).type = (lib.symbolOf s).type ∧
      (next.symbolOf s).modification = (lib.symbolOf s).modification ∧
      (next.symbolOf s).visibility = (lib.symbolOf s).visibility
  closed : lib.Closed → next.Closed

namespace Kept

variable {touched : SymbolId → Prop} {lib now next : Library}

theorem refl (touched : SymbolId → Prop) (lib : Library) : lib.Kept touched lib :=
  ⟨le_rfl, le_rfl, fun c _ => ⟨(lib.classOf c).origin, rfl⟩, fun _ _ _ => ⟨rfl, rfl, rfl⟩, id⟩

theorem thenLater {more : SymbolId → Prop} (first : Kept touched lib now) (second : Kept more now next)
    (later : ∀ s, s.In lib → more s → touched s) : Kept touched lib next where
  moreClasses := first.moreClasses.trans second.moreClasses
  moreSymbols := first.moreSymbols.trans second.moreSymbols
  classOf c known := by
    obtain ⟨_, before⟩ := first.classOf c known
    obtain ⟨o, after⟩ := second.classOf c (known.trans_le first.moreClasses)
    exact ⟨o, by rw [after, before]⟩
  symbolOf s known apart := by
    have before := first.symbolOf s known apart
    have after := second.symbolOf s (known.trans_le first.moreSymbols) fun touches => apart (later s known touches)
    rwa [before.1, before.2.1, before.2.2] at after
  closed given := second.closed (first.closed given)

theorem trans (first : Kept touched lib now) (second : Kept touched now next) :
    Kept touched lib next := first.thenLater second fun _ _ => id

theorem weaken {less more : SymbolId → Prop} (kept : Kept less lib next)
    (within : ∀ s, s.In lib → less s → more s) : Kept more lib next :=
  { kept with symbolOf := fun s known apart => kept.symbolOf s known fun touched => apart (within s known touched) }

theorem of_extended (ext : lib.Extended next) : Kept touched lib next :=
  ⟨ext.moreClasses, ext.moreSymbols, ext.classOf, fun s known _ => by rw [ext.symbolOf s known]; simp, ext.closed⟩

section

variable (kept : Kept touched lib now)
include kept

theorem of_tables (classes : next.classes = now.classes) (symbols : next.symbols = now.symbols) :
    Kept touched lib next := by
  cases now
  cases next
  cases classes
  cases symbols
  exact ⟨kept.moreClasses, kept.moreSymbols, kept.classOf, kept.symbolOf, fun given c =>
    ⟨(kept.closed given c).parent, (kept.closed given c).symbols⟩⟩

theorem modifyModification (m : ModificationId) (f : List ArgumentId → List ArgumentId) :
    Kept touched lib (now.modifyModification m f) :=
  kept.of_tables rfl rfl

theorem modifyArgument (a : ArgumentId) (f : Argument → Argument) : Kept touched lib (now.modifyArgument a f) :=
  kept.of_tables rfl rfl

theorem pushModification (as : List ArgumentId) : Kept touched lib (now.pushModification as) := kept.of_tables rfl rfl

theorem pushArgument (d : Argument) : Kept touched lib (now.pushArgument d) := kept.of_tables rfl rfl

theorem modifySymbol (s : SymbolId) (f : Symbol → Symbol)
    (allowed : touched s) : Kept touched lib (now.modifySymbol s f) where
  __ := kept
  moreSymbols := by simpa using kept.moreSymbols
  symbolOf t known apart := by
    rw [symbolOf_modifySymbol_ne now s t f fun same => apart (same ▸ allowed)]
    exact kept.symbolOf t known apart
  closed given c := (kept.closed given c).mono le_rfl (Nat.le_of_eq (symbols_size_modifySymbol now s f).symm)

theorem modifyClass (c : ClassId) (new : c.New lib) (f : ClassDef → ClassDef)
    (holds : now.Closed → c.In now → now.Holds c (f (now.classOf c))) :
    Kept touched lib (now.modifyClass c f) where
  __ := kept
  moreClasses := by simpa using kept.moreClasses
  classOf d known := by
    have other : c ≠ d := by
      rintro rfl
      omega
    rw [classOf_modifyClass_ne now c d f other]
    exact kept.classOf d known
  closed given := (kept.closed given).modifyClass c f (holds (kept.closed given))

end

end Kept

end Library

namespace Build

open Library

variable {α β : Type}

structure Frame (R : Library → Library → Prop) : Prop extends Passing R where
  pushModification : ∀ lib as, R lib (lib.pushModification as)
  pushArgument : ∀ lib d, R lib (lib.pushArgument d)
  modifyArgument : ∀ lib a f, (lib.argumentOf a).Follows (f (lib.argumentOf a)) →
    R lib (lib.modifyArgument a f)
  instantiable : ∀ c r, Respects R (Build.instantiable c r)

namespace Frame

variable {R : Library → Library → Prop} (frame : Frame R)

include frame

theorem addModification (as : List ArgumentId) : Respects R (Build.addModification as) := fun lib =>
  (ensures_addModification as).2 (frame.pushModification lib as)

theorem addArgument (value : ArgumentValue) (scope : Option ClassId) (redeclare : Bool) :
    Respects R (Build.addArgument value scope redeclare) := fun lib =>
  (ensures_addArgument value scope redeclare).2 (frame.pushArgument lib _)

theorem attributeArguments (a : ArgumentId) : Respects R (Build.attributeArguments a) := by
  refine frame.andThen (frame.elementOf a) fun element => frame.andThen (frame.argumentOf a) fun d => ?_
  refine frame.andThen (frame.loop _ _ _ fun change result => ?_) fun _ => frame.returned _
  split
  · exact frame.andThen (frame.argumentsOf _) fun _ => frame.returned _
  · exact frame.andThen (frame.addArgument _ _ _) fun _ => frame.returned _

theorem nestedArguments (own : List ArgumentId) : Respects R (Build.nestedArguments own) := by
  refine frame.andThen (frame.loop _ _ _ fun a result => ?_) fun _ => frame.returned _
  refine frame.andThen (frame.elementOf a) fun element => ?_
  refine frame.andThen (frame.loop _ _ _ fun change result => ?_) fun _ => frame.returned _
  split
  · exact frame.andThen (frame.argumentsOf _) fun _ => frame.returned _
  · exact frame.andThen (respects_throw _) fun _ => frame.returned _

theorem shiftArgument (a : ArgumentId) : Respects R (Build.shiftArgument a) := by
  intro lib
  unfold Build.shiftArgument Build.elementOf
  rw [ensures_bind, bind_argumentOf]
  split
  · next component changes value =>
    rw [ensures_pure]
    dsimp only
    split
    · exact .throw
    · next c child =>
      exact (ensures_updateArgument a _).2 (frame.modifyArgument lib a _
        ⟨rfl, .inr rfl, .inr ⟨component, c, c, changes, value, child, rfl⟩⟩)
  · exact .throw

theorem componentArguments (builtin : Bool) (own : List ArgumentId) :
    Respects R (Build.componentArguments builtin own) := by
  refine frame.andThen (frame.loop _ _ _ fun a result => ?_) fun _ => frame.returned _
  refine frame.andThen (frame.plainModifier a) fun _ => ?_
  split
  · exact frame.andThen (frame.attributeArguments a) fun _ => frame.returned _
  · exact frame.andThen (frame.shiftArgument a) fun _ => frame.returned _

theorem noteScope (k : ClassId) (s : SymbolId) : Respects R (Build.noteScope k s) := by
  refine frame.andThen (frame.symbolOf s) fun d => ?_
  extract_lets note
  have noted : ∀ all, Respects R (note all) := by
    refine fun all => frame.andThen (frame.loop _ _ _ fun a _ => ?_) fun _ => frame.returned _
    refine frame.andThen (fun lib => ?_) fun _ => frame.returned _
    refine (ensures_updateArgument a _).2 (frame.modifyArgument lib a _ ?_)
    split
    · next none => exact ⟨rfl, .inl (Option.isNone_iff_eq_none.1 none), .inl rfl⟩
    · exact .refl _
  split
  · exact frame.andThen (frame.argumentsOf _) noted
  · exact frame.andThen (frame.returned _) noted

end Frame

theorem copyClass_extends (lib : Library) (c : ClassId) :
    (copyClass c).Ensures lib (fun _ next => lib.Extended next) fun e _ => e = .unbounded := by
  unfold copyClass
  rw [bind_get, ensures_bind]
  refine ((Copy.able lib _).classes c {} lib (.start lib)).imp ?_
  rintro ⟨e, memo⟩ next ⟨adding, _⟩
  exact (ensures_pure e).2 adding.ext

theorem instantiable_extends (lib : Library) (c : ClassId) (r : ComponentRef) :
    (instantiable c r).Ensures lib (fun _ next => lib.Extended next) fun e next =>
      e = .elementaryClass → next = lib ∧ elementaryNames.contains r.name = true := by
  unfold instantiable
  split
  · next elementary =>
    rw [ensures_bind, ensures_throw]
    exact fun _ => ⟨rfl, elementary⟩
  · rw [ensures_bind]
    unfold findClass
    rw [bind_get]
    split
    · rw [ensures_pure]
      refine (copyClass_extends lib _).mono (fun _ _ => id) ?_
      rintro e next rfl
      nofun
    · rw [ensures_throw]
      nofun

theorem instantiable_or_elementary (lib : Library) (c : ClassId) (r : ComponentRef) :
    (tryCatch (some <$> instantiable c r) fun
      | .elementaryClass => pure none
      | e => throw e).Ensures lib
      (fun o next => lib.Extended next ∧ (o = none → elementaryNames.contains r.name = true))
      anyhow := by
  rw [ensures_tryCatch, ensures_map]
  refine (instantiable_extends lib c r).mono (fun _ _ ext => ⟨ext, nofun⟩) ?_
  intro e next why
  split
  · obtain ⟨rfl, elementary⟩ := why rfl
    exact .pure ⟨.refl _, fun _ => elementary⟩
  · exact .throw

variable {R : Library → Library → Prop} {lib now : Library} {given k : ClassId}

theorem Frame.instantiableOrNone (frame : Frame R) (c : ClassId) (r : ComponentRef) :
    Respects R (tryCatch (some <$> Build.instantiable c r) fun
      | .elementaryClass => pure none
      | e => throw e) := by
  intro lib
  rw [ensures_tryCatch, ensures_map]
  refine ((frame.instantiable c r lib).and (instantiable_extends lib c r)).mono (fun _ _ holds => holds.1) ?_
  rintro e next ⟨_, why⟩
  split
  · obtain ⟨rfl, _⟩ := why rfl
    exact .pure (frame.refl _)
  · exact .throw

theorem Frame.extendsBuiltin (frame : Frame R) (fuel : Nat) (c : ClassId) :
    Respects R (Build.extendsBuiltin fuel c) := by
  induction fuel generalizing c with
  | zero => exact respects_throw _
  | succ fuel ih =>
    unfold Build.extendsBuiltin
    refine frame.andThen (frame.classOf c) fun d => ?_
    refine frame.andThen (frame.loop _ _ _ fun clause result => ?_) fun result => ?_
    · refine frame.andThen (frame.instantiableOrNone c clause.component) fun found => ?_
      cases found with
      | none => exact frame.returned _
      | some e =>
        refine frame.andThen (ih e) fun builtin => ?_
        cases builtin <;> exact frame.returned _
    · cases result.1 <;> exact frame.returned _

abbrev Quiet (x : Build α) : Prop := Respects (Kept fun _ => False) x

theorem kept_frame : Frame (Kept fun _ => False) where
  refl lib := .refl _ lib
  trans first second := first.trans second
  pushModification lib as := (Kept.refl _ lib).pushModification as
  pushArgument lib d := (Kept.refl _ lib).pushArgument d
  modifyArgument lib a f _ := (Kept.refl _ lib).modifyArgument a f
  instantiable c r lib := (instantiable_extends lib c r).mono (fun _ _ ext => .of_extended ext) fun _ _ _ => trivial

theorem quiet_updateModification (m : ModificationId) (f : List ArgumentId → List ArgumentId) :
    Quiet (updateModification m f) := fun lib =>
  (ensures_updateModification m f).2 ((Kept.refl _ lib).modifyModification m f)

theorem quiet_takeArguments (m : ModificationId) (name : String) : Quiet (takeArguments m name) :=
  kept_frame.andThen kept_frame.seen fun _ =>
    kept_frame.andThen (quiet_updateModification m _) fun _ => kept_frame.returned _

theorem limitVisibility_limits (lib : Library) (c : ClassId) (v : Visibility)
    (known : ∀ s ∈ (lib.classOf c).symbols.values, s.In lib) :
    (limitVisibility c v).Ensures lib (fun _ next => next.classes = lib.classes ∧
      lib.Kept (· ∈ (lib.classOf c).symbols.values) next ∧ ∀ s ∈ (lib.classOf c).symbols.values,
        (next.symbolOf s).visibility.rank = min (lib.symbolOf s).visibility.rank v.rank)
      anyhow := by
  unfold limitVisibility
  rw [bind_classOf, ensures_bind]
  refine ensures_forIn _ _ _ (fun done _ now => now.classes = lib.classes ∧
    lib.Kept (· ∈ (lib.classOf c).symbols.values) now ∧
    ∀ s, (now.symbolOf s).visibility.rank = if s ∈ done then
      min (lib.symbolOf s).visibility.rank v.rank else (lib.symbolOf s).visibility.rank)
    ⟨rfl, .refl _ lib, by simp⟩ ?_ ?_
  · rintro done s rest ⟨⟩ now all ⟨same, kept, ranks⟩
    have member : s ∈ (lib.classOf c).symbols.values := by simp [all]
    rw [ensures_bind, ensures_updateSymbol, ensures_pure]
    refine ⟨same, kept.modifySymbol s _ member, fun t => ?_⟩
    by_cases other : s = t
    · subst other
      have before := ranks s
      rw [symbolOf_modifySymbol_self now s _ ((known s member).trans_le kept.moreSymbols)]
      split <;> grind
    · rw [symbolOf_modifySymbol_ne now s t _ other, ranks]
      simp [Ne.symm other]
  · rintro ⟨⟩ now ⟨same, kept, ranks⟩
    exact .pure ⟨same, kept, fun s member => by rw [ranks, if_pos member]⟩

theorem baseClass_new (lib : Library) (closed : lib.Closed) (c : ClassId) (r : ComponentRef)
    (known : c.In lib) :
    (baseClass c r).Ensures lib (fun e next => lib.Extended next ∧ e.New lib ∧
      ∀ s ∈ (next.classOf e).symbols.values, s.New lib) anyhow := by
  unfold baseClass
  split
  · unfold builtinClass
    rw [ensures_bind, ensures_addSymbol, bind_get, ensures_addClass]
    have ext := (Extended.refl lib).pushSymbol
      { name := "__value", type := .named (.simple (elementaryType r.name)) }
    have root := rootOf_induct (ext.closed closed).parent_known c known
    refine ⟨ext.pushClass _ fun _ => ⟨?_, ?_⟩, le_rfl, ?_⟩
    · intro p same
      cases same
      refine ⟨root, fun itself => ?_⟩
      rw [itself] at root
      exact lt_irrefl _ root
    · rintro s (_ | ⟨_, ⟨⟩⟩)
      exact nextSymbol_lt ..
    · rw [classOf_pushClass_self]
      rintro s (_ | ⟨_, ⟨⟩⟩)
      exact le_rfl
  · rw [ensures_bind]
    unfold findClass
    rw [bind_get]
    split
    · rw [ensures_pure]
      refine (copyClass_new lib closed _).mono ?_ fun _ _ _ => trivial
      exact fun e next ⟨ext, new, fresh⟩ => ⟨ext, new, fun s member => (fresh s member).1⟩
    · exact .throw

structure Merging (lib : Library) (allowed : SymbolId → Prop) (k : ClassId) (now : Library) :
    Prop where
  kept : lib.Kept (fun _ => False) now
  closed : now.Closed
  new : lib.classes.size ≤ k.index
  known : k.index < now.classes.size
  role : ∃ environment, (now.classOf k).role = .instance_ environment
  keys : (now.classOf k).classes.keys.Nodup
  table : ∀ s ∈ (now.classOf k).symbols.values, allowed s ∨ lib.symbols.size ≤ s.index

namespace Merging

variable {lib now next : Library} {allowed : SymbolId → Prop} {k : ClassId}

theorem start (lib : Library) (closed : lib.Closed) (changed : Array Modification) (d : ClassDef)
    (parent : ∀ p, d.parent = some p → p.In lib)
    (role : ∃ environment, d.role = .instance_ environment) (classes : d.classes = .empty)
    (symbols : d.symbols = .empty) :
    Merging lib allowed lib.nextClass (Library.pushClass { lib with modifications := changed } d) := by
  let now : Library := { lib with modifications := changed }
  have same : now.Closed := fun c => ⟨(closed c).parent, (closed c).symbols⟩
  have holds : now.Holds now.nextClass d := by
    refine ⟨fun p has => ⟨parent p has, ?_⟩, fun s member => ?_⟩
    · rintro rfl
      exact lt_irrefl _ (parent _ has)
    · rw [symbols] at member
      contradiction
  have ext := (Extended.refl now).pushClass d fun _ => holds
  have here : (now.pushClass d).classOf lib.nextClass = d := classOf_pushClass_self now d
  refine ⟨⟨ext.moreClasses, le_rfl, ext.classOf, fun _ _ _ => ⟨rfl, rfl, rfl⟩,
    fun _ => ext.closed same⟩, ext.closed same, le_rfl, ?_, ?_, ?_, ?_⟩
  · exact nextClass_lt ..
  · rw [here]
    exact role
  · rw [here, classes]
    exact List.nodup_nil
  · rw [here, symbols]
    nofun

section

variable (merging : Merging lib allowed k now)
include merging

theorem later {touched : SymbolId → Prop} (kept : Kept touched now next)
    (apart : ∀ s, s.In lib → ¬ touched s) : Merging lib allowed k next := by
  obtain ⟨origin, same⟩ := kept.classOf k merging.known
  refine ⟨merging.kept.thenLater kept apart, kept.closed merging.closed, merging.new,
    merging.known.trans_le kept.moreClasses, ?_, ?_, ?_⟩
  all_goals rw [same]
  · exact merging.role
  · exact merging.keys
  · exact merging.table

theorem allow {more : SymbolId → Prop} (within : ∀ s, allowed s → more s) : Merging lib more k now :=
  { merging with table := fun s member => (merging.table s member).imp_left (within s) }

theorem modifyClass (f : ClassDef → ClassDef) (parent : (f (now.classOf k)).parent = (now.classOf k).parent)
    (role : ∃ environment, (f (now.classOf k)).role = .instance_ environment)
    (keys : (f (now.classOf k)).classes.keys.Nodup)
    (table : ∀ s ∈ (f (now.classOf k)).symbols.values,
      s.In now ∧ (allowed s ∨ s.New lib)) :
    Merging lib allowed k (now.modifyClass k f) := by
  have holds : now.Holds k (f (now.classOf k)) :=
    ⟨fun p has => (merging.closed k).parent p (parent ▸ has), fun s member => (table s member).1⟩
  have same := classOf_modifyClass_self now k f merging.known
  refine ⟨merging.kept.modifyClass k merging.new f fun _ _ => holds,
    merging.closed.modifyClass k f fun _ => holds, merging.new, ?_, ?_, ?_, ?_⟩
  · simpa using merging.known
  all_goals rw [same]
  · exact role
  · exact keys
  · exact fun s member => (table s member).2

variable (other : ClassId)
  (table : ∀ s ∈ (now.classOf other).symbols.values, allowed s ∨ lib.symbols.size ≤ s.index)
include table

theorem merge :
    Merging lib allowed k (now.modifyClass k fun d => d.merge (now.classOf other)) := by
  refine merging.modifyClass _ rfl merging.role (nodup_union _ _ merging.keys) ?_
  intro s member
  obtain ⟨entry, listed, rfl⟩ := List.mem_map.1 member
  obtain old | new := mem_entries_union _ _ entry listed
  · have own : entry.2 ∈ (now.classOf k).symbols.values := List.mem_map_of_mem old
    exact ⟨(merging.closed k).symbols _ own, merging.table _ own⟩
  · have own : entry.2 ∈ (now.classOf other).symbols.values := List.mem_map_of_mem new
    exact ⟨(merging.closed other).symbols _ own, table _ own⟩

theorem takeOver :
    (takeOver k other).Ensures now (fun _ next => Merging lib allowed k next ∧ next.symbols = now.symbols ∧
      (next.classOf k).symbols = (now.classOf k).symbols.union (now.classOf other).symbols)
      anyhow := by
  unfold Build.takeOver
  rw [bind_classOf, bind_updateClass, bind_classOf]
  have merged := merging.merge other table
  have here := congrArg ClassDef.symbols (classOf_modifyClass_self now k
    (fun d => d.merge (now.classOf other)) merging.known)
  split
  · rw [ensures_bind, ensures_argumentsOf]
    exact (ensures_updateModification _ _).2
      ⟨merged.later ((Kept.refl never _).modifyModification _ _) fun _ _ => id, rfl, here⟩
  · exact .pure ⟨merged, rfl, here⟩

end

end Merging

structure Merged (lib : Library) (given k : ClassId) (next : Library) : Prop where
  kept : lib.Kept (· ∈ (next.classOf k).symbols.values) next
  new : lib.classes.size ≤ k.index
  known : k.index < next.classes.size
  role : ∃ environment, (next.classOf k).role = .instance_ environment
  keys : (next.classOf k).classes.keys.Nodup
  table : ∀ s ∈ (next.classOf k).symbols.values,
    s ∈ (lib.classOf given).symbols.values ∨ lib.symbols.size ≤ s.index

theorem Merging.merged (merging : Merging lib (· ∈ (lib.classOf given).symbols.values) k now) :
    Merged lib given k now :=
  ⟨merging.kept.weaken fun _ _ => False.elim, merging.new, merging.known, merging.role, merging.keys, merging.table⟩

theorem Merged.withRole (merged : Merged lib given k now) (as : List ArgumentId)
    (environment : ModificationId) : Merged lib given k
      ((now.pushModification as).modifyClass k fun d => { d with role := .instance_ environment }) := by
  have same := (classOf_modifyClass_self (now.pushModification as) k · merged.known)
  have kept := (merged.kept.pushModification as).modifyClass k merged.new
    (fun d => { d with role := .instance_ environment }) fun closed _ => ⟨(closed k).parent, (closed k).symbols⟩
  refine ⟨?_, merged.new, ?_, ?_, ?_, ?_⟩
  · rw [same]
    exact kept
  · rw [classes_size_modifyClass]
    exact merged.known
  all_goals rw [same]
  · exact ⟨environment, rfl⟩
  · exact merged.keys
  · exact merged.table

def Merges (merge : Builder) : Prop :=
  ∀ given environment parent lib, lib.Closed → (∀ p, parent = some p → p.index < lib.classes.size) →
    (merge given environment parent).Ensures lib (fun k next => Merged lib given k next)
      fun _ _ => True

def ClassDef.begun (d : ClassDef) (annotated : ModificationId) (parent : Option ClassId)
    (w : ModificationId) (k : ClassId) : ClassDef :=
  { name := d.name
    type := d.type
    annotated := some annotated
    parent := parent
    role := .instance_ w
    origin := k }

-- The instance of a class before any base class is merged into it, and the modifications that wait in it.
def beginInstance (given : ClassId) (parent : Option ClassId) : Build (ClassId × ModificationId) := do
  let d ← classOf given
  let annotated ← addModification []
  let waiting ←
    match d.role with
    | .instance_ e => pure e
    | _ => addModification []
  let id ← addClass (ClassDef.begun d annotated parent waiting)
  return (id, waiting)

theorem beginInstance_of_instance {e : ModificationId} {parent : Option ClassId}
    (role : (lib.classOf given).role = .instance_ e) :
    beginInstance given parent lib = .ok (lib.nextClass, e) ((lib.pushModification []).pushClass
      (ClassDef.begun (lib.classOf given) lib.nextModification parent e lib.nextClass)) := by
  refine Returns.eq ?_
  unfold beginInstance Returns
  rw [bind_classOf, ensures_bind, ensures_addModification]
  simp only [role, pure_bind, ensures_bind, ensures_addClass, ensures_pure]
  exact ⟨rfl, rfl⟩

theorem beginInstance_of_definition {parent : Option ClassId}
    (role : ∀ e, (lib.classOf given).role ≠ .instance_ e) :
    beginInstance given parent lib = .ok (lib.nextClass, (lib.pushModification []).nextModification)
      (((lib.pushModification []).pushModification []).pushClass (ClassDef.begun (lib.classOf given)
        lib.nextModification parent (lib.pushModification []).nextModification lib.nextClass)) := by
  refine Returns.eq ?_
  unfold beginInstance Returns
  rw [bind_classOf, ensures_bind, ensures_addModification]
  split
  · next e has => exact absurd has (role e)
  · simp only [ensures_bind, ensures_addModification, ensures_addClass, ensures_pure]
    exact ⟨rfl, rfl⟩

-- The base class that `clause` names is found, and `merge` makes an instance of it. Before that `k` takes over
-- the type of a built-in class.
def Base (merge : Builder) (given k : ClassId) (clause : ExtendsClause) (was : Library) (base : ClassId)
    (next : Library) (merged : ClassId) (mid : Library) : Prop :=
  ∃ now, baseClass given clause.component was = .ok base now ∧
    next = (if (now.classOf base).type = "__builtin" then
      now.modifyClass k fun e => { e with type := (now.classOf base).type } else now) ∧
    merge base (some clause.modification) (now.classOf base).parent next = .ok merged mid

-- The component is one of the base class of a clause, whose turn comes after those of the clauses before it. It
-- is as visible as the least of the component there, its clause and all clauses behind that.
def Inherited (merge : Builder) (given k : ClassId) (step : ExtendsClause → Build Unit) (begun : Library)
    (clauses : List ExtendsClause) (now : Library) (e : String × SymbolId) : Prop :=
  ∃ before clause after was base next merged mid, clauses = before ++ clause :: after ∧
    forM before step begun = .ok ⟨⟩ was ∧ Base merge given k clause was base next merged mid ∧
    e ∈ (mid.classOf merged).symbols.entries ∧ (now.symbolOf e.2).visibility.rank =
      ((clause :: after).map (·.visibility.rank)).foldl min (mid.symbolOf e.2).visibility.rank

def Inherits (merge : Builder) (given k : ClassId) (step : ExtendsClause → Build Unit) (begun : Library)
    (clauses : List ExtendsClause) (now : Library) : Prop :=
  ∀ e ∈ (now.classOf k).symbols.entries, Inherited merge given k step begun clauses now e

-- The step of a clause of `given` in the merging of its bases.
def clauseStep (merge : Builder) (lib : Library) (given k : ClassId) (w : ModificationId) : ExtendsClause → Build Unit :=
  mergeBase merge given k w ((lib.classOf given).extends_.length ≤ 1)

-- The component is one of `given` itself and as visible as there, or it is inherited.
def Shows (merge : Builder) (lib : Library) (given k : ClassId) (w : ModificationId) (begun next : Library)
    (e : String × SymbolId) : Prop :=
  e ∈ (lib.classOf given).symbols.entries ∧
      (next.symbolOf e.2).visibility = (lib.symbolOf e.2).visibility ∨
    Inherited merge given k (clauseStep merge lib given k w) begun (lib.classOf given).extends_ next e

theorem Inherits.join {merge : Builder} {step : ExtendsClause → Build Unit} {begun : Library}
    {done : List ExtendsClause} {clause : ExtendsClause} {merged base : ClassId} {mid next typed : Library}
    (inherits : Inherits merge given k step begun done now) (reached : forM done step begun = .ok ⟨⟩ now)
    (found : Base merge given k clause now base typed merged mid)
    (each : ∀ e ∈ (next.classOf k).symbols.entries, (next.symbolOf e.2).visibility.rank =
        min (mid.symbolOf e.2).visibility.rank clause.visibility.rank ∧
      (e ∈ (mid.classOf merged).symbols.entries ∨ e ∈ (now.classOf k).symbols.entries ∧
        (mid.symbolOf e.2).visibility = (now.symbolOf e.2).visibility)) :
    Inherits merge given k step begun (done ++ [clause]) next := by
  intro e member
  obtain ⟨least, new | ⟨old, same⟩⟩ := each e member
  · exact ⟨done, clause, [], now, base, typed, merged, mid, rfl, reached, found, new, least⟩
  · obtain ⟨before, first, after, was, base, typed, merged, mid, rfl, reached, found, has, limited⟩ := inherits e old
    refine ⟨before, first, after ++ [clause], was, base, typed, merged, mid, by simp, reached, found, has, ?_⟩
    rw [least, same, limited, ← List.cons_append, List.map_append, List.foldl_append]
    rfl

theorem Merging.mergeBase {merge : Builder} (merges : Merges merge)
    (merging : Merging lib never k now) (known : given.In lib)
    {done : List ExtendsClause} {step : ExtendsClause → Build Unit} {begun : Library}
    (inherits : Inherits merge given k step begun done now) (reached : forM done step begun = .ok ⟨⟩ now)
    (waiting : ModificationId) (single : Bool) (clause : ExtendsClause) :
    (mergeBase merge given k waiting single clause).Ensures now (fun _ next => Merging lib never k next ∧
      Inherits merge given k step begun (done ++ [clause]) next) anyhow := by
  have there := known.trans_le merging.kept.moreClasses
  unfold Build.mergeBase
  refine (baseClass_new now merging.closed given clause.component there).ran.bind ?_
  rintro base now₁ ⟨⟨ext, new, fresh⟩, found⟩
  refine (passing_eq.pathText base now₁).bind ?_
  rintro path now₁ rfl
  refine (passing_eq.pathText given now₁).bind ?_
  rintro own now₁ rfl
  have mid := merging.later (.of_extended ext) fun _ _ => not_false
  have other : k ≠ base := by
    rintro rfl
    exact absurd merging.known (not_lt.2 new)
  have around := fun p has => ((mid.closed base).parent p has).1
  have table : (now₁.classOf k).symbols = (now.classOf k).symbols := by
    obtain ⟨_, same⟩ := ext.classOf k merging.known
    rw [same]
  extract_lets checked
  split
  · exact (ensures_bind _ _).2 (.throw)
  unfold checked
  rw [bind_classOf]
  extract_lets rest typed
  -- the components of the base class are new, so what is merged concerns none that was there
  have merge_ : ∀ now₂, Merging lib never k now₂ → now₂ = (if (now₁.classOf base).type = "__builtin" then
        now₁.modifyClass k fun e => { e with type := (now₁.classOf base).type } else now₁) →
      now₂.classOf base = now₁.classOf base →
      now₂.classes.size = now₁.classes.size → now₂.symbols = now₁.symbols →
      (now₂.classOf k).symbols = (now.classOf k).symbols → (rest ()).Ensures now₂ (fun _ next => Merging lib never k next ∧
        Inherits merge given k step begun (done ++ [clause]) next) anyhow := by
    intro now₂ mid typing same sizes symbols table
    have more : now.symbols.size ≤ now₂.symbols.size := symbols ▸ ext.moreSymbols
    have := merging.kept.moreSymbols
    unfold rest
    refine (merges base _ _ now₂ mid.closed (fun p has => sizes ▸ around p has)).ran.bind ?_
    rintro merged now₃ ⟨of_base, run⟩
    have fresh₃ : ∀ s ∈ (now₃.classOf merged).symbols.values, s.New now := by
      intro s member
      obtain own | later := of_base.table s member
      · rw [same] at own
        exact fresh s own
      · omega
    obtain ⟨_, table₃⟩ := of_base.kept.classOf k mid.known
    have mid := mid.later of_base.kept fun s known touched => by
      have := fresh₃ s touched
      omega
    refine (mid.takeOver merged fun s member => .inr (by have := fresh₃ s member; omega)).bind ?_
    rintro _ now₄ ⟨mid, symbols₄, table₄⟩
    refine (passing_eq.environmentOf merged now₄).bind ?_
    rintro _ now₄ rfl
    rw [ensures_bind, ensures_argumentsOf, ensures_bind]
    refine (ensures_updateModification _ _).2 ?_
    have last := fun f => mid.later ((Kept.refl never now₄).modifyModification waiting f) fun _ _ => id
    refine (limitVisibility_limits _ k clause.visibility ((last _).closed k).symbols).imp ?_
    rintro _ next ⟨classes, kept, ranks⟩
    have tables : next.classOf k = now₄.classOf k := by
      rw [Library.classOf, classes]
      rfl
    refine ⟨(last _).later kept fun s known touched => ?_, inherits.join reached
      ⟨now₁, found, typing, run⟩ fun e member => ⟨?_, ?_⟩⟩
    · have := (mid.table s touched).resolve_left id
      omega
    · have least := ranks e.2 (tables ▸ List.mem_map_of_mem member)
      rwa [Library.symbolOf, Library.modifyModification, symbols₄] at least
    · rw [tables, table₄, table₃] at member
      refine (mem_entries_union _ _ e member).symm.imp_right fun old => ?_
      rw [table] at old
      have here := (merging.closed k).symbols _ (List.mem_map_of_mem old)
      refine ⟨old, ?_⟩
      rw [(of_base.kept.symbolOf e.2 (here.trans_le more) fun touched => ?_).2.2, Library.symbolOf, symbols]
      · exact congrArg Symbol.visibility (ext.symbolOf e.2 here)
      · exact not_lt.2 (fresh₃ _ touched) here
  split
  · next builtin =>
    split
    · unfold typed
      rw [bind_updateClass]
      have here := congrArg ClassDef.symbols (classOf_modifyClass_self now₁ k
        (fun e => { e with type := (now₁.classOf base).type }) mid.known)
      refine merge_ _ ?_ (if_pos builtin).symm (classOf_modifyClass_ne now₁ k base _ other) (classes_size_modifyClass ..) rfl
        (here.trans table)
      exact mid.modifyClass _ rfl mid.role mid.keys fun s member =>
        ⟨(mid.closed k).symbols s member, mid.table s member⟩
    · exact (ensures_bind _ _).2 (.throw)
  · next other => exact merge_ now₁ mid (if_neg other).symm rfl rfl rfl table

def Shown (k : ClassId) (lib next : Library) : Prop :=
  (next.classOf k).symbols = (lib.classOf k).symbols ∧
    ∀ s, (next.symbolOf s).visibility = (lib.symbolOf s).visibility

theorem modifyValue_steps (lib : Library) (k : ClassId) (w : ModificationId) : (modifyValue k w).Ensures lib
    (fun _ next => next = lib ∨ (lib.classOf k).type = "__builtin" ∧ ∃ v ∈ (lib.classOf k).symbols.values, ∃ mid,
      ((∃ m f, (lib.symbolOf v).modification = some m ∧ mid = lib.modifyModification m f) ∨
        mid = lib.modifySymbol v fun s => { s with modification := some w }) ∧
      next = (mid.pushModification []).modifyClass k fun e => { e with role := .instance_ mid.nextModification })
    anyhow := by
  unfold modifyValue
  rw [bind_classOf]
  split
  · next builtin =>
    rw [bind_classOf]
    split
    · exact .throw
    · next v found =>
      rw [bind_symbolOf]
      cases has : (lib.symbolOf v).modification <;> simp only [appendArguments, ensures_bind, ensures_argumentsOf,
        ensures_updateModification, ensures_updateSymbol, ensures_addModification, ensures_updateClass]
      · exact .inr ⟨builtin, v, mem_values_of_find? found, _, .inr rfl, rfl⟩
      · exact .inr ⟨builtin, v, mem_values_of_find? found, _, .inl ⟨_, _, has, rfl⟩, rfl⟩
  · exact .pure (.inl rfl)

theorem Merging.modifyValue (merging : Merging lib (· ∈ (lib.classOf given).symbols.values) k now)
    (waiting : ModificationId) : (modifyValue k waiting).Ensures now (fun _ next =>
      Merged lib given k next ∧ Shown k now next) anyhow := by
  refine (modifyValue_steps now k waiting).imp ?_
  rintro _ _ (rfl | ⟨-, v, listed, mid, steps, rfl⟩)
  · exact ⟨merging.merged, rfl, fun _ => rfl⟩
  have ⟨merged, table, seen⟩ : Merged lib given k mid ∧ Shown k now mid := by
    obtain ⟨m, f, -, rfl⟩ | rfl := steps
    · exact ⟨(merging.later ((Kept.refl never now).modifyModification m f) fun _ _ => id).merged,
        rfl, fun _ => rfl⟩
    · refine ⟨⟨?_, merging.new, merging.known, merging.role, merging.keys, merging.table⟩, rfl, fun s => ?_⟩
      · exact merging.merged.kept.modifySymbol v _ listed
      · exact symbolOf_modifySymbol_of _ _ _ _ (motive := (·.visibility = _)) rfl fun _ => rfl
  refine ⟨merged.withRole [] _, ?_, seen⟩
  rw [classOf_modifyClass_self (mid.pushModification []) k _ merged.known]
  exact table

theorem Merging.shows {merge : Builder} {begun mid next : Library} {w : ModificationId} (merging : Merging lib never k now)
    (closed : lib.Closed) (known : given.In lib)
    (inherits : Inherits merge given k (clauseStep merge lib given k w) begun (lib.classOf given).extends_ now) (symbols : mid.symbols = now.symbols)
    (table : (mid.classOf k).symbols = (now.classOf k).symbols.union (now.classOf given).symbols)
    (shown : Shown k mid next) : ∀ e ∈ (next.classOf k).symbols.entries, Shows merge lib given k w begun next e := by
  intro e member
  obtain ⟨_, own⟩ := merging.kept.classOf given known
  have seen : (next.symbolOf e.2).visibility = (now.symbolOf e.2).visibility := by
    rw [shown.2, Library.symbolOf, symbols]
    rfl
  rw [shown.1, table, own] at member
  refine (mem_entries_union _ _ e member).symm.imp (fun new => ⟨new, ?_⟩) fun old => ?_
  · rw [seen]
    exact (merging.kept.symbolOf e.2 ((closed given).symbols _ (List.mem_map_of_mem new)) id).2.2
  · unfold Inherited
    rw [seen]
    exact inherits e old

theorem mergeBases_merged (fuel : Nat) (merges : Merges (mergeBases fuel)) (given : ClassId)
    (environment : Option ModificationId) (parent : Option ClassId) (lib : Library) (closed : lib.Closed)
    (around : ∀ p, parent = some p → p.In lib) :
    (mergeBases (fuel + 1) given environment parent).Ensures lib (fun k next => Merged lib given k next ∧
      (given.In lib → ∃ w begun, beginInstance given parent lib = .ok (k, w) begun ∧
        ∀ e ∈ (next.classOf k).symbols.entries, Shows (mergeBases fuel) lib given k w begun next e)) anyhow := by
  unfold mergeBases
  rw [bind_classOf, ensures_bind, ensures_addModification]
  extract_lets rest
  have finish : ∀ waiting changed, beginInstance given parent lib = .ok (lib.nextClass, waiting)
        (Library.pushClass { lib with modifications := changed }
          (ClassDef.begun (lib.classOf given) lib.nextModification parent waiting lib.nextClass)) →
      (rest waiting).Ensures { lib with modifications := changed } (fun k next => Merged lib given k next ∧
        (given.In lib → ∃ w begun, beginInstance given parent lib = .ok (k, w) begun ∧
          ∀ e ∈ (next.classOf k).symbols.entries, Shows (mergeBases fuel) lib given k w begun next e)) anyhow := by
    intro waiting changed begins
    unfold rest
    rw [ensures_bind, ensures_addClass, ensures_bind]
    have start : Merging lib never lib.nextClass (Library.pushClass { lib with modifications := changed }
        (ClassDef.begun (lib.classOf given) lib.nextModification parent waiting lib.nextClass)) :=
      .start lib closed changed _ around ⟨_, rfl⟩ rfl rfl
    obtain ⟨begun, is⟩ : ∃ begun, begun = Library.pushClass { lib with modifications := changed }
        (ClassDef.begun (lib.classOf given) lib.nextModification parent waiting lib.nextClass) := ⟨_, rfl⟩
    rw [← is] at begins start
    show Ensures _ (Library.pushClass { lib with modifications := changed }
      (ClassDef.begun (lib.classOf given) lib.nextModification parent waiting lib.nextClass)) _ _
    rw [← is]
    refine ensures_forIn _ _ _ (fun done _ now => Merging lib never lib.nextClass now ∧
      (∀ s ∈ (now.classOf given).symbols.values, s ∈ (lib.classOf given).symbols.values ∨ s.New lib) ∧
      forM done (clauseStep (mergeBases fuel) lib given lib.nextClass waiting) begun = .ok ⟨⟩ now ∧
      Inherits (mergeBases fuel) given lib.nextClass (clauseStep (mergeBases fuel) lib given lib.nextClass waiting)
        begun done now) ⟨start, ?_, rfl, ?_⟩ ?_ ?_
    · intro s member
      by_cases same : given = lib.nextClass
      · subst same
        exact (start.table s member).imp_left False.elim
      · left
        rw [is, classOf_pushClass_ne] at member
        · exact member
        · exact fun index => same (by cases given; cases index; rfl)
    · intro e member
      rw [is, show Library.classOf _ lib.nextClass = _ from
        classOf_pushClass_self { lib with modifications := changed } _] at member
      contradiction
    · rintro done clause rest ⟨⟩ now all ⟨merging, _, reached, inherits⟩
      have known : given.In lib := by
        by_contra unknown
        rw [classOf_of_le lib given (by omega)] at all
        simp at all
      refine (merging.mergeBase merges known inherits reached waiting _ clause).ran.bind ?_
      rintro _ next ⟨⟨merging, inherits⟩, ran⟩
      rw [ensures_pure]
      refine ⟨merging, ?_, forM_snoc reached ran, inherits⟩
      obtain ⟨origin, same⟩ := merging.kept.classOf given known
      rw [same]
      exact fun s => .inl
    · rintro ⟨⟩ now ⟨merging, source, _, inherits⟩
      refine ((merging.allow fun _ => False.elim).takeOver given source).bind ?_
      rintro ⟨⟩ mid ⟨taken, symbols, table⟩
      have shows := fun next (is : Shown lib.nextClass mid next) known =>
        merging.shows closed known inherits symbols table is
      extract_lets last
      split
      · rw [ensures_bind, ensures_argumentsOf, ensures_bind]
        refine (ensures_updateModification _ _).2 (((taken.later ((Kept.refl never mid).modifyModification
          _ _) fun _ _ => id).modifyValue waiting).bind fun _ next is =>
            .pure ⟨is.1, fun known => ⟨waiting, begun, begins, shows next is.2 known⟩⟩)
      · exact (taken.modifyValue waiting).bind fun _ next is =>
          .pure ⟨is.1, fun known => ⟨waiting, begun, begins, shows next is.2 known⟩⟩
  split
  · next has =>
    rw [ensures_bind, ensures_pure]
    exact finish _ _ (beginInstance_of_instance has)
  · next other =>
    rw [ensures_bind, ensures_addModification]
    exact finish _ _ (beginInstance_of_definition other)

theorem mergeBases_merges (fuel : Nat) : Merges (mergeBases fuel) := by
  induction fuel with
  | zero => exact fun _ _ _ _ _ _ => .throw
  | succ fuel ih =>
    intro given environment parent lib closed around
    exact (mergeBases_merged fuel ih given environment parent lib closed around).imp fun _ _ => And.left

end Build

end Modelica
