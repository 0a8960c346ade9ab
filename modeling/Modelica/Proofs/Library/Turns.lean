import Modelica.Proofs.Library.Forming

set_option autoImplicit false

namespace Modelica.Build

open Library OrderedMap

theorem sound_frame (hidden : Hidden) :
    Frame fun lib next => lib.Sound hidden → next.Sound hidden ∧ lib.Onward hidden next where
  refl lib sound := ⟨sound, .refl _ lib⟩
  trans first second sound := by
    obtain ⟨sound, onward⟩ := first sound
    obtain ⟨sound, further⟩ := second sound
    exact ⟨sound, onward.trans further⟩
  pushModification lib as sound := ⟨sound.pushModification as,
    (Onward.refl _ lib).pushModification sound.hiddenModifications as⟩
  pushArgument lib d sound := ⟨sound.pushArgument d, (Onward.refl _ lib).pushArgument d⟩
  modifyArgument lib a f follows sound := ⟨sound.modifyArgument a f,
    (Grown.refl lib).modifyArgument a f, (Recalls.refl lib).modifyArgument a f follows, fun _ _ => rfl⟩
  instantiable c r lib := by
    by_cases sound : lib.Sound hidden
    · exact (instantiable_sound lib sound c r).imp fun _ _ ⟨sound, onward, _⟩ _ => ⟨sound, onward⟩
    · exact (instantiable_extends lib c r).mono (fun _ _ _ given => absurd given sound) fun _ _ _ => trivial

def Safe (build : Builder) : Prop :=
  ∀ (hidden : Hidden) given modification parent lib, lib.Sound hidden → lib.Open hidden given →
    (∀ p, parent = some p → p.index < lib.classes.size) →
    (build given modification parent).Ensures lib (fun k next => next.Sound hidden ∧
      lib.Onward hidden next ∧ next.Open hidden k) fun _ _ => True

structure Stage (hidden : Hidden) (lib : Library) (k : ClassId) (own : Prop) (w : ModificationId)
    (parent : Option ClassId) (merged : Library) (classes : OrderedMap (Option String) ClassId)
    (waiting : List ArgumentId) (now : Library) : Prop where
  forming : ∃ table, Forming hidden lib k own w parent table now
  symbols : (now.classOf k).symbols = (merged.classOf k).symbols
  classes : (now.classOf k).classes = classes
  waits : own → (now.modificationOf w).arguments = waiting
  recalls : merged.Recalls now
  more : merged.classes.size ≤ now.classes.size
  others : ∀ c, c.index < merged.classes.size → c ≠ k → now.classOf c = merged.classOf c

variable {hidden : Hidden} {lib merged now next : Library} {k : ClassId} {own : Prop}
  {w : ModificationId} {parent : Option ClassId} {classes : OrderedMap (Option String) ClassId}
  {waiting : List ArgumentId}

namespace Stage

section Steps

variable (stage : Stage hidden lib k own w parent merged classes waiting now)

include stage

theorem sound : now.Sound (hidden.insert k own w) := by
  obtain ⟨_, forming⟩ := stage.forming
  exact forming.sound

theorem onward : lib.Onward hidden now := by
  obtain ⟨_, forming⟩ := stage.forming
  exact forming.onward

theorem known : k.In now := by
  obtain ⟨_, forming⟩ := stage.forming
  exact forming.known

theorem around : (now.classOf k).parent = parent := by
  obtain ⟨_, forming⟩ := stage.forming
  exact forming.around

theorem opened_class {name : Option String} {c : ClassId} (found : classes.find? name = some c) :
    now.Open (hidden.insert k own w) c := by
  rw [← stage.classes] at found
  exact stage.sound.nested (mem_values_of_find? found)

theorem after (sound : next.Sound (hidden.insert k own w)) (onward : now.Onward (hidden.insert k own w) next) :
    Stage hidden lib k own w parent merged classes waiting next := by
  have same := onward.classOf k stage.known
  obtain ⟨table, forming⟩ := stage.forming
  refine ⟨⟨table, forming.after sound onward⟩, ?_, ?_, fun mine => ?_,
    stage.recalls.trans onward.toRecalls, stage.more.trans onward.moreClasses, ?_⟩
  · rw [same]
    exact stage.symbols
  · rw [same]
    exact stage.classes
  · rw [onward.waiting w (.inr ⟨mine, rfl⟩)]
    exact stage.waits mine
  · intro c known other
    rw [onward.classOf c (known.trans_le stage.more), stage.others c known other]

theorem anchor : Stage hidden lib k own w parent now classes waiting now :=
  ⟨stage.forming, rfl, stage.classes, stage.waits, .refl now, le_rfl, fun _ _ _ => rfl⟩

theorem rebase {classes' : OrderedMap (Option String) ClassId} {waiting' : List ArgumentId}
    (further : Stage hidden lib k own w parent now classes' waiting' next) :
    Stage hidden lib k own w parent merged classes' waiting' next := by
  refine ⟨further.forming, further.symbols.trans stage.symbols, further.classes, further.waits,
    stage.recalls.trans further.recalls, stage.more.trans further.more, ?_⟩
  intro c known other
  rw [further.others c (known.trans_le stage.more) other, stage.others c known other]

theorem meanwhile {α : Type} {x : Build α} (respects : ∀ hidden, Respects (fun lib next => lib.Sound hidden →
      next.Sound hidden ∧ lib.Onward hidden next) x) :
    x.Ensures now (fun _ next => Stage hidden lib k own w parent merged classes waiting next) anyhow :=
  (respects _ now).imp fun _ _ goes => stage.after (goes stage.sound).1 (goes stage.sound).2

theorem build {build : Builder} (safe : Safe build) (c : ClassId)
    (modification : Option ModificationId) (p : Option ClassId)
    (opened : now.Open (hidden.insert k own w) c)
    (around : ∀ e, p = some e → e.In now) :
    (build c modification p).Ensures now (fun e next =>
      Stage hidden lib k own w parent merged classes waiting next ∧
        next.Open (hidden.insert k own w) e ∧ now.Grown next ∧
          build c modification p now = .ok e next) anyhow := by
  refine (safe _ c modification p now stage.sound opened around).ran.imp ?_
  rintro e next ⟨⟨sound, onward, opened⟩, run⟩
  exact ⟨stage.after sound onward, opened, onward.toGrown, run⟩

theorem modifySymbol (s : SymbolId) (f : Symbol → Symbol)
    (sound : now.SoundSymbol (hidden.insert k own w) (f (now.symbolOf s))) :
    Stage hidden lib k own w parent merged classes waiting (now.modifySymbol s f) := by
  obtain ⟨table, forming⟩ := stage.forming
  exact ⟨⟨table, forming.modifySymbol s f sound⟩, stage.symbols, stage.classes, stage.waits,
    ⟨stage.recalls.moreArguments, stage.recalls.follows⟩, stage.more, stage.others⟩

theorem retype (s : SymbolId) (f : Symbol → Symbol) (type : ∀ c, (f (now.symbolOf s)).type =
    .instance_ c → now.Open (hidden.insert k own w) c)
    (connector : (f (now.symbolOf s)).connectorType = (now.symbolOf s).connectorType)
    (modification : (f (now.symbolOf s)).modification = none ∨
      (f (now.symbolOf s)).modification = (now.symbolOf s).modification) :
    Stage hidden lib k own w parent merged classes waiting (now.modifySymbol s f) := by
  have before := stage.sound.symbol s
  refine stage.modifySymbol s f ⟨type, fun c has => before.connector c (connector ▸ has), ?_⟩
  intro m has
  obtain none | same := modification
  · rw [none] at has
    contradiction
  · exact before.modification m (same ▸ has)

theorem modifyClass (f : ClassDef → ClassDef) (around : (f (now.classOf k)).parent = (now.classOf k).parent)
    (role : (f (now.classOf k)).role = (now.classOf k).role)
    (origin : (f (now.classOf k)).origin = (now.classOf k).origin)
    (notes : (f (now.classOf k)).annotated = (now.classOf k).annotated)
    (symbols : (f (now.classOf k)).symbols = (now.classOf k).symbols)
    (functions : (f (now.classOf k)).functions = (now.classOf k).functions)
    (nested : ∀ e ∈ (f (now.classOf k)).classes.values, now.Open (hidden.insert k own w) e) :
    Stage hidden lib k own w parent merged (f (now.classOf k)).classes waiting (now.modifyClass k f) := by
  have here := classOf_modifyClass_self now k f stage.known
  have mine := stage.sound.classes k stage.known
  obtain ⟨table, forming⟩ := stage.forming
  refine ⟨⟨_, forming.modifyClass f around role origin notes ?_ ?_ nested ?_⟩, ?_, ?_, stage.waits,
    ⟨stage.recalls.moreArguments, stage.recalls.follows⟩, ?_, ?_⟩
  · rw [symbols]
    exact forming.unique
  · rw [symbols]
    exact mine.holds.symbols
  · rw [functions]
    exact mine.functions
  · rw [here, symbols]
    exact stage.symbols
  · rw [here]
  · simpa using stage.more
  · intro c known other
    rw [classOf_modifyClass_ne now k c f (Ne.symm other), stage.others c known other]

theorem insertClass (name : Option String) (c : ClassId) (opened : now.Open (hidden.insert k own w) c) :
    Stage hidden lib k own w parent merged (classes.insert name c) waiting
      (now.modifyClass k fun d => { d with classes := d.classes.insert name c }) := by
  have changed := stage.modifyClass (fun d => { d with classes := d.classes.insert name c }) rfl rfl rfl rfl rfl rfl ?_
  · rw [← stage.classes]
    exact changed
  · intro e member
    obtain ⟨entry, listed, rfl⟩ := List.mem_map.1 member
    obtain rfl | old := mem_entries_insert _ name c entry listed
    · exact opened
    · exact stage.sound.nested (List.mem_map_of_mem old : entry.2 ∈ _)

theorem modifyWaiting (f : List ArgumentId → List ArgumentId) :
    Stage hidden lib k own w parent merged classes (f waiting) (now.modifyModification w f) := by
  obtain ⟨table, forming⟩ := stage.forming
  refine ⟨⟨table, forming.modifyModification w forming.apart f⟩, stage.symbols, stage.classes,
    fun mine => ?_, ⟨stage.recalls.moreArguments, stage.recalls.follows⟩, stage.more, stage.others⟩
  rw [modificationOf_modifyModification_self now w f forming.waits, ← stage.waits mine]

theorem takeArguments (name : String) : (takeArguments w name).Ensures now (fun taken next =>
      Stage hidden lib k own w parent merged classes (waiting.filter fun a => !(now.argumentOf a).concerns name) next ∧
      next = now.modifyModification w (·.filter fun a => !taken.contains a) ∧
      taken = (now.modificationOf w).arguments.filter fun a => (now.argumentOf a).concerns name)
      anyhow := by
  unfold Build.takeArguments
  rw [bind_get, ensures_bind, ensures_updateModification, ensures_pure]
  refine ⟨?_, rfl, rfl⟩
  have changed := stage.modifyWaiting fun all => all.filter fun a =>
    !((now.modificationOf w).arguments.filter fun a => (now.argumentOf a).concerns name).contains a
  refine { changed with waits := fun mine => (changed.waits mine).trans ?_ }
  refine List.filter_congr fun a member => ?_
  rw [stage.waits mine]
  simp [member]

theorem modifyMore (s : SymbolId) (as : List ArgumentId) : (modifyMore s as).Ensures now (fun _ next =>
      Stage hidden lib k own w parent merged classes waiting next) anyhow := by
  unfold Build.modifyMore
  rw [bind_symbolOf]
  split
  · next m has =>
    have free := (stage.sound.symbol s).modification m has
    refine (ensures_updateModification m _).2 (stage.after (stage.sound.modifyModification m _) ?_)
    exact (Onward.refl _ now).modifyModification m free.2 _
  · rw [ensures_bind, ensures_addModification, ensures_updateSymbol]
    have pushed := stage.after (stage.sound.pushModification as)
      ((Onward.refl _ now).pushModification stage.sound.hiddenModifications as)
    have before := pushed.sound.symbol s
    refine pushed.modifySymbol s _ ⟨before.type, before.connector, ?_⟩
    rintro m ⟨⟩
    refine ⟨?_, fun hides => lt_irrefl _ (stage.sound.hiddenModifications _ hides)⟩
    exact nextModification_lt ..

end Steps

end Stage

def Replaces (lib : Library) (a : ArgumentId) (name : Option String) : Prop :=
  (lib.argumentOf a).redeclare = true ∧
    ∃ s, (lib.argumentOf a).value = .shortClass s ∧ name = some s.name

variable {build : Builder}

theorem Replaces.later {a : ArgumentId} {name : Option String} (replaces : Replaces lib a name)
    (recalls : lib.Recalls next) : Replaces next a name := by
  obtain ⟨redeclares, s, value, named⟩ := replaces
  have known : a.In lib := by
    by_contra unknown
    simp [Library.argumentOf, not_lt.1 unknown] at redeclares
  have follows := recalls.follows a known
  refine ⟨follows.redeclare.trans redeclares, s, ?_, named⟩
  rw [follows.value_eq fun r changes has => ?_, value]
  rw [value] at has
  contradiction

namespace Stage

variable (safe : Safe build) (stage : Stage hidden lib k own w parent merged classes waiting now)
include safe stage

theorem redeclareSymbol (new : ClassId) (opened : now.Open (hidden.insert k own w) new)
    (oldName : Option String) (s : SymbolId) :
    (redeclareSymbol build new oldName s).Ensures now (fun _ next =>
      Stage hidden lib k own w parent merged classes waiting next ∧ now.Grown next)
      anyhow := by
  unfold Build.redeclareSymbol
  rw [bind_symbolOf]
  split
  · rw [bind_classOf]
    split
    · rw [bind_symbolOf, bind_classOf]
      have around := fun p has => ((stage.sound.closed new).parent p has).1
      refine (stage.build safe new _ _ opened around).bind ?_
      rintro e next ⟨stage, opened, grown, _⟩
      rw [ensures_updateSymbol]
      refine ⟨stage.retype s _ ?_ rfl (.inr rfl), grown.modifySymbol s _⟩
      rintro c ⟨⟩
      exact opened
    · exact .pure ⟨stage, .refl _⟩
  · exact .pure ⟨stage, .refl _⟩

theorem redeclare (a : ArgumentId) :
    (redeclare build k a).Ensures now (fun _ next => ∃ classes',
      Stage hidden lib k own w parent merged classes' waiting next ∧ classes'.keys = classes.keys ∧
        ∀ name, classes'.find? name = classes.find? name ∨ Replaces now a name)
      anyhow := by
  unfold Build.redeclare
  rw [bind_argumentOf]
  split
  · next redeclares =>
    split
    · next s value =>
      unfold Build.classEntry
      rw [ensures_bind, bind_classOf, stage.classes]
      split
      · next old found =>
        rw [ensures_pure]
        refine (instantiable_sound now stage.sound _ s.component).bind ?_
        rintro new now₁ ⟨sound, onward, opened, _⟩
        have stage := stage.after sound onward
        rw [bind_updateClass, bind_classOf, bind_classOf]
        have inserted := stage.insertClass (some s.name) new opened
        have opened : (now₁.modifyClass k fun d =>
            { d with classes := d.classes.insert (some s.name) new }).Open
            (hidden.insert k own w) new := ⟨by rw [classes_size_modifyClass]; exact opened.1, opened.2⟩
        refine (ensures_forEach _ _ (fun next => Stage hidden lib k own w parent merged
          (classes.insert (some s.name) new) waiting next ∧ next.Open (hidden.insert k own w) new)
          ⟨inserted, opened⟩ ?_).bind fun _ _ goes => .pure ?_
        · rintro symbol _ now ⟨stage, opened⟩
          exact (stage.redeclareSymbol safe new opened _ symbol).imp fun _ _ both => ⟨both.1, both.2.opened opened⟩
        · have present : some s.name ∈ classes.keys := (find?_isSome_iff _ _).1 (by rw [found]; rfl)
          refine ⟨_, goes.1, by rw [keys_insert, if_pos present], fun name => ?_⟩
          by_cases same : name = some s.name
          · exact .inr ⟨redeclares, s, value, same⟩
          · exact .inl (find?_insert_ne classes same new)
      · exact .throw
    · next c _ =>
      refine (ensures_forIn _ _ _ (fun _ _ next =>
        Stage hidden lib k own w parent merged classes waiting next) stage ?_ fun _ _ => id).bind
        fun _ _ stage => .pure ⟨classes, stage, rfl, fun _ => .inl rfl⟩
      rintro _ s rest ⟨⟩ next _ stage
      rw [bind_symbolOf]
      unfold symbolEntry
      rw [ensures_bind, bind_classOf]
      split
      · rw [ensures_pure, ensures_bind, ensures_updateSymbol, ensures_pure]
        exact stage.retype _ _ (stage.sound.symbol s).type rfl (.inr rfl)
      · exact .throw
    · exact .throw
  · exact .pure ⟨classes, stage, rfl, fun _ => .inl rfl⟩

theorem redeclarations (as : List ArgumentId) :
    (forIn as PUnit.unit fun a _ => do
      Build.redeclare build k a
      pure (ForInStep.yield PUnit.unit)).Ensures now (fun _ next => ∃ classes',
        Stage hidden lib k own w parent merged classes' waiting next ∧ classes'.keys = classes.keys ∧
          ∀ name, classes'.find? name = classes.find? name ∨ ∃ a ∈ as, Replaces next a name)
      anyhow := by
  refine ensures_forEach as _ (fun next => ∃ classes',
    Stage hidden lib k own w parent merged classes' waiting next ∧ classes'.keys = classes.keys ∧
      ∀ name, classes'.find? name = classes.find? name ∨ ∃ a ∈ as, Replaces next a name)
    ⟨classes, stage, rfl, fun _ => .inl rfl⟩ ?_
  rintro a listed now ⟨classes₁, stage, keys, before⟩
  refine (stage.anchor.redeclare safe a).imp ?_
  rintro _ next ⟨classes₂, further, same, replaced⟩
  refine ⟨classes₂, stage.rebase further, same.trans keys, fun name => ?_⟩
  obtain kept | replaces := replaced name
  · obtain still | ⟨b, member, replaces⟩ := before name
    · exact .inl (kept.trans still)
    · exact .inr ⟨b, member, replaces.later further.recalls⟩
  · exact .inr ⟨a, listed, replaces.later further.recalls⟩

end Stage

-- On the way from `lib` to `next` a copy of `d` became the instance `e`, with a class around it, and `e` has
-- been left as it was then.
def Becomes (build : Builder) (lib : Library) (d : ClassId) (around : Option ClassId) (e : ClassId)
    (next : Library) : Prop :=
  ∃ c modification now after, lib.Grown now ∧ now.originOf c = d ∧
    build c modification around now = .ok e after ∧ next.classOf e = after.classOf e

theorem Becomes.later {d e : ClassId} {around : Option ClassId}
    (becomes : Becomes build lib d around e now) (same : next.classOf e = now.classOf e) :
    Becomes build lib d around e next := by
  obtain ⟨c, modification, before, after, grown, origin, run, left⟩ := becomes
  exact ⟨c, modification, before, after, grown, origin, run, same.trans left⟩

structure Drawn (lib : Library) (taken : String → Prop) (before after : List ArgumentId) : Prop where
  sublist : after.Sublist before
  left : ∀ a ∈ before, a.index < lib.arguments.size → (lib.argumentOf a).Plain →
    (∀ name, taken name → (lib.argumentOf a).concerns name = false) → a ∈ after

namespace Drawn

variable {taken further : String → Prop} {first second third : List ArgumentId}

theorem refl (lib : Library) (taken : String → Prop) (as : List ArgumentId) :
    Drawn lib taken as as := ⟨.refl as, fun _ member _ _ _ => member⟩

theorem trans (before : Drawn lib taken first second) (after : Drawn lib further second third) :
    Drawn lib (fun name => taken name ∨ further name) first third where
  sublist := after.sublist.trans before.sublist
  left a member known plain apart := after.left a
    (before.left a member known plain fun name has => apart name (.inl has)) known plain
    fun name has => apart name (.inr has)

theorem mono (drawn : Drawn lib taken first second) (within : ∀ name, taken name → further name) :
    Drawn lib further first second :=
  ⟨drawn.sublist, fun a member known plain apart =>
    drawn.left a member known plain fun name has => apart name (within name has)⟩

theorem earlier (recalls : lib.Recalls now) (drawn : Drawn now taken first second) : Drawn lib taken first second where
  sublist := drawn.sublist
  left a member known plain apart := by
    have follows := recalls.follows a known
    have same := follows.value_eq plain.value
    refine drawn.left a member (known.trans_le recalls.moreArguments) ⟨?_, ?_⟩ fun name has => ?_
    · rw [follows.redeclare, plain.redeclare]
    · rw [same]
      exact plain.value
    · rw [← apart name has]
      unfold Argument.concerns
      rw [same]

theorem filter (lib : Library) (as : List ArgumentId) (name : String) :
    Drawn lib (· = name) as (as.filter fun a => !(lib.argumentOf a).concerns name) where
  sublist := List.filter_sublist
  left a member _ _ apart := List.mem_filter.2 ⟨member, by rw [apart name rfl]; rfl⟩

theorem redeclarations (lib : Library) (taken : String → Prop) (as : List ArgumentId) :
    Drawn lib taken as (as.filter fun a => !(lib.argumentOf a).redeclare) where
  sublist := List.filter_sublist
  left a member _ plain _ := List.mem_filter.2 ⟨member, by rw [plain.redeclare]; rfl⟩

end Drawn

namespace Stage

variable (safe : Safe build) (stage : Stage hidden lib k own w parent now classes waiting now)
include safe stage

theorem instantiateNested (name : Option String)
    (c : ClassId) (opened : now.Open (hidden.insert k own w) c) :
    (instantiateNested build k w name c).Ensures now (fun _ next => ∃ e waiting',
      Stage hidden lib k own w parent now (classes.insert name e) waiting' next ∧
      Becomes build lib (now.originOf c) (some k) e next ∧
      Drawn now (some · = name) waiting waiting') anyhow := by
  have other : c ≠ k := fun same => opened.2 (.inr same)
  unfold Build.instantiateNested
  extract_lets rest
  have built : ∀ own' mid waiting', Stage hidden lib k own w parent now classes waiting' mid →
      Drawn now (some · = name) waiting waiting' →
      (rest own').Ensures mid (fun _ next => ∃ e waiting',
        Stage hidden lib k own w parent now (classes.insert name e) waiting' next ∧
        Becomes build lib (now.originOf c) (some k) e next ∧
        Drawn now (some · = name) waiting waiting') anyhow := by
    intro own' mid waiting' stage drawn
    refine (stage.meanwhile fun hidden => (sound_frame hidden).nestedArguments own').bind fun as mid stage => ?_
    refine (stage.meanwhile fun hidden => (sound_frame hidden).addModification as).bind fun nested mid stage => ?_
    have still := stage.others c opened.1 other
    have there : mid.Open (hidden.insert k own w) c := ⟨opened.1.trans_le stage.more, opened.2⟩
    refine (stage.build safe c _ _ there fun p same => ?_).bind ?_
    · cases same
      exact stage.known
    · rintro e next ⟨last, fresh, _, run⟩
      rw [ensures_updateClass]
      have apart : k ≠ e := fun same => fresh.2 (.inr same.symm)
      refine ⟨e, waiting', last.insertClass name e fresh, ?_, drawn⟩
      exact ⟨c, _, mid, next, stage.onward.toGrown, congrArg ClassDef.origin still, run,
        classOf_modifyClass_ne next k e _ apart⟩
  split
  · next n =>
    refine (stage.takeArguments n).bind ?_
    rintro own' mid ⟨taken, _⟩
    refine built own' mid _ taken ((Drawn.filter now waiting n).mono ?_)
    rintro _ rfl
    rfl
  · rw [ensures_bind, ensures_pure]
    exact built [] now waiting stage (.refl _ _ _)

theorem nestedLoop (unique : classes.keys.Nodup) :
    (forIn classes.entries PUnit.unit fun (name, c) _ => do
      Build.instantiateNested build k w name c
      pure (ForInStep.yield PUnit.unit)).Ensures now (fun _ next => ∃ classes' waiting',
        Stage hidden lib k own w parent now classes' waiting' next ∧
        classes'.keys = classes.keys ∧
        (∀ entry ∈ classes.entries, ∃ e, classes'.find? entry.1 = some e ∧
          Becomes build lib (now.originOf entry.2) (some k) e next) ∧
        Drawn now (some · ∈ classes.keys) waiting waiting') anyhow := by
  have start := stage
  refine ensures_forIn _ _ _ (fun done _ next => ∃ classes' waiting',
    Stage hidden lib k own w parent now classes' waiting' next ∧ classes'.keys = classes.keys ∧
    (∀ entry ∈ done, ∃ e, classes'.find? entry.1 = some e ∧ Becomes build lib (now.originOf entry.2) (some k) e next) ∧
    (∀ entry ∈ classes.entries, entry.1 ∉ done.map Prod.fst → classes'.find? entry.1 = some entry.2) ∧
    Drawn now (some · ∈ classes.keys) waiting waiting') ?_ ?_ ?_
  · exact ⟨classes, waiting, stage, rfl, nofun, fun entry member _ => find?_of_mem _ unique _ _ member, .refl _ _ _⟩
  · rintro done ⟨name, c⟩ rest ⟨⟩ mid all ⟨classes₁, waiting₁, stage, keys, before, ahead, drawn⟩
    have listed : (name, c) ∈ classes.entries := by simp [all]
    have present : name ∈ classes.keys := List.mem_map_of_mem listed
    have fresh : name ∉ done.map Prod.fst := not_mem_done unique all
    have known := start.opened_class (find?_of_mem _ unique _ _ listed)
    have same : mid.originOf c = now.originOf c := congrArg ClassDef.origin
      (stage.others c known.1 fun same => known.2 (.inr same))
    refine Ensures.bind (stage.anchor.instantiateNested safe name c (stage.opened_class (ahead _ listed fresh))) ?_
    rintro _ next ⟨e, waiting₂, further, becomes, taken⟩
    refine .pure ⟨_, waiting₂, stage.rebase further, ?_, ?_, ?_, ?_⟩
    · rw [keys_insert, keys, if_pos present]
    · intro entry member
      obtain old | rfl := List.mem_append.1 member |>.imp_right List.mem_singleton.1
      · -- an instance that was made before is left alone
        obtain ⟨e', found, made⟩ := before entry old
        have apart : entry.1 ≠ name := fun same => fresh (same ▸ List.mem_map_of_mem old)
        have opened := stage.opened_class found
        refine ⟨e', by rw [find?_insert_ne _ apart, found], made.later ?_⟩
        exact further.others e' opened.1 fun same => opened.2 (.inr same)
      · rw [same] at becomes
        exact ⟨e, find?_insert_self _ name e, becomes⟩
    · intro entry member absent
      rw [List.map_append, List.mem_append, not_or] at absent
      have apart : entry.1 ≠ name := fun same => absent.2 (by simp [same])
      rw [find?_insert_ne _ apart, ahead entry member absent.1]
    · refine (drawn.trans (taken.earlier stage.recalls)).mono ?_
      rintro n (inside | here)
      · exact inside
      · exact here ▸ present
  · rintro _ next ⟨classes', waiting', stage, keys, done, _, drawn⟩
    exact ⟨classes', waiting', stage, keys, done, drawn⟩

end Stage

theorem componentClass_sound (lib : Library) (sound : lib.Sound hidden) (k : ClassId) (s : SymbolId) :
    (componentClass k s).Ensures lib (fun found next => next.Sound hidden ∧ lib.Onward hidden next ∧ match found with
        | none => ∃ r, (lib.symbolOf s).type = .named r ∧ elementaryNames.contains r.name = true
        | some c => next.Open hidden c ∧ ∀ r, (lib.symbolOf s).type = .named r →
          elementaryNames.contains r.name = false ∧
            (lib.findClass? k r.names).map lib.originOf = some (next.originOf c))
      anyhow := by
  unfold componentClass
  rw [bind_symbolOf]
  split
  · next c has =>
    refine .pure ⟨sound, .refl _ lib, (sound.symbol s).type c has, fun r named => ?_⟩
    rw [has] at named
    contradiction
  · exact .throw
  · next r has =>
    rw [ensures_tryCatch, ensures_map]
    refine ((instantiable_sound lib sound k r).and (instantiable_extends lib k r)).mono ?_ ?_
    · rintro c next ⟨⟨sound, onward, opened, other, found⟩, _⟩
      refine ⟨sound, onward, opened, fun r' named => ?_⟩
      cases has.symm.trans named
      exact ⟨other, found⟩
    · rintro e next ⟨_, why⟩
      split
      · obtain ⟨rfl, elementary⟩ := why rfl
        exact .pure ⟨sound, .refl _ _, r, has, elementary⟩
      · exact .throw

-- The turn of a component in parts. Its class is looked up and the arguments that wait for it are taken out;
-- they are handed to it; and if it has a class then that becomes an instance.
def openTurn (fuel : Nat) (k : ClassId) (w : ModificationId) (name : String) (s : SymbolId) :
    Build (Option ClassId × List ArgumentId × Bool) := do
  let found ← componentClass k s
  let own ← takeArguments w name
  match found with
  | none => return (none, own, true)
  | some c => return (some c, own, ← extendsBuiltin fuel c)

def handOver (s : SymbolId) (builtin : Bool) (own : List ArgumentId) : Build Unit := do
  modifyMore s (← componentArguments builtin own)

def Makes (build : Builder) (fuel : Nat) (k : ClassId) (w : ModificationId) (name : String) (s : SymbolId)
    (before : Library) (c : ClassId) (start : Library) (t : ClassId) : Prop :=
  ∃ own builtin mid last ended, openTurn fuel k w name s before = .ok (some c, own, builtin) mid ∧
    handOver s builtin own mid = .ok () last ∧ noteScope k s last = .ok () start ∧
    build c (start.symbolOf s).modification (start.classOf c).parent start = .ok t ended

namespace Stage

theorem instantiateSymbol (safe : Safe build)
    (stage : Stage hidden lib k own w parent now classes waiting now) (fuel : Nat) (given : ClassId)
    (name : String) (s : SymbolId) (listed : s ∈ (now.classOf k).symbols.values) :
    (instantiateSymbol build fuel given k w name s).Ensures now (fun _ next => ∃ waiting',
      Stage hidden lib k own w parent now classes waiting' next ∧
      Drawn now (· = name) waiting waiting' ∧
      ∀ r, (now.symbolOf s).type = .named r → elementaryNames.contains r.name = false →
        ∃ d c start t, (now.findClass? k r.names).map now.originOf = some d ∧ start.originOf c = d ∧
          (start.classOf c).parent = (now.classOf d).parent ∧ Makes build fuel k w name s now c start t ∧
          (next.symbolOf s).type = .instance_ t) anyhow := by
  have start := stage
  unfold Build.instantiateSymbol
  refine (componentClass_sound now stage.sound k s).ran.bind ?_
  rintro found now₁ ⟨⟨sound, onward, names⟩, finds⟩
  replace stage := stage.after sound onward
  have drawn : Drawn now (· = name) waiting (waiting.filter fun a => !(now₁.argumentOf a).concerns name) :=
    (Drawn.filter now₁ waiting name).earlier stage.recalls
  have taken := stage.takeArguments name
  split
  · -- a built-in type stays what it is
    refine taken.bind ?_
    rintro own' now₂ ⟨stage, _⟩
    refine (stage.meanwhile fun hidden => (sound_frame hidden).componentArguments true own').bind
      fun as now₃ stage => ?_
    refine (stage.modifyMore s as).imp fun _ next stage => ⟨_, stage, drawn, fun r named other => ?_⟩
    obtain ⟨r', has, elementary⟩ := names
    cases has.symm.trans named
    rw [elementary] at other
    contradiction
  · next c =>
    obtain ⟨first, names⟩ := names
    have apart : c ≠ k := fun same => first.2 (.inr same)
    have base := stage.anchor
    refine (base.takeArguments name).ran.bind ?_
    rintro own' now₂ ⟨⟨since, _⟩, takes⟩
    refine (since.meanwhile fun hidden => (sound_frame hidden).extendsBuiltin fuel c).ran.bind ?_
    rintro builtin now₃ ⟨since, backs⟩
    refine (since.meanwhile fun hidden => (sound_frame hidden).componentArguments builtin own').ran.bind ?_
    rintro as now₄ ⟨since, argues⟩
    refine (since.modifyMore s as).ran.bind ?_
    rintro _ now₅ ⟨since, modifies⟩
    refine (since.meanwhile fun hidden => (sound_frame hidden).noteScope k s).ran.bind ?_
    rintro _ now₆ ⟨since, notes⟩
    rw [ensures_bind, ensures_tryCatch, bind_symbolOf, bind_classOf]
    have around := fun p has => ((since.sound.closed c).parent p has).1
    have there₆ : now₆.Open (hidden.insert k own w) c := ⟨first.1.trans_le since.more, first.2⟩
    refine (since.build safe c _ _ there₆ around).mono ?_ fun _ next _ =>
      ((sound_frame hidden).pathText given next).bind fun _ _ _ => .throw
    rintro t next ⟨last, fresh, grown, run⟩
    rw [ensures_updateSymbol]
    have whole := stage.rebase last
    have settled := whole.retype s (fun d => { d with type := .instance_ t, modification := none })
      (by rintro _ ⟨⟩; exact fresh) rfl (.inl rfl)
    refine ⟨_, settled, drawn, fun r named other => ?_⟩
    have stands := (names r named).2
    have known : s.In next := (whole.sound.closed k).symbols s (by rw [whole.symbols]; exact listed)
    refine ⟨now₁.originOf c, c, now₆, t, stands, congrArg ClassDef.origin (since.others c first.1 apart), ?_,
      ⟨own', builtin, now₃, now₅, next, (bind_of_run finds).trans ((bind_of_run takes).trans (bind_of_run backs)),
        (bind_of_run argues).trans modifies, notes, run⟩, ?_⟩
    · obtain ⟨e, looked, origin⟩ := Option.map_eq_some_iff.1 stands
      have here := start.sound.open_originOf (open_findClass? start.sound r.names k e (names_ne_nil r) looked)
      rw [origin] at here
      rw [← onward.classOf _ here.1, ← (sound.twins first.1).parent, ← since.others c first.1 apart]
    · rw [symbolOf_modifySymbol_self next s _ known]

end Stage

-- The turn of a component comes after those of the components before it, which have led from `start` to
-- `before`.
def Turn (hidden : Hidden) (lib : Library) (k : ClassId) (own : Prop) (w : ModificationId)
    (parent : Option ClassId) (merged : Library) (classes : OrderedMap (Option String) ClassId)
    (waiting : List ArgumentId) (taken : String → Prop) (step : String → SymbolId → Build Unit)
    (start next : Library) (done : List (String × SymbolId)) (entry : String × SymbolId) : Prop :=
  ∃ before after left, (forM done fun entry => step entry.1 entry.2) start = .ok () before ∧
    Stage hidden lib k own w parent merged classes left before ∧
    Drawn merged (fun n => taken n ∨ n ≠ entry.1) waiting left ∧
    step entry.1 entry.2 before = .ok () after ∧
    ∃ rest, Stage hidden lib k own w parent before classes rest next

namespace Stage

theorem symbolLoop (safe : Safe build) (stage : Stage hidden lib k own w parent now classes waiting now)
    (unique : (now.classOf k).symbols.keys.Nodup) (fuel : Nat) (given : ClassId) :
    (forIn (now.classOf k).symbols.entries PUnit.unit fun (name, s) _ => do
      Build.instantiateSymbol build fuel given k w name s
      pure (ForInStep.yield PUnit.unit)).Ensures now (fun _ next => ∃ waiting',
        Stage hidden lib k own w parent now classes waiting' next ∧
        ∀ done entry, done ++ [entry] <+: (now.classOf k).symbols.entries →
          Turn hidden lib k own w parent now classes waiting never
            (Build.instantiateSymbol build fuel given k w) now next done entry)
      anyhow := by
  refine ensures_forIn _ _ _ (fun done _ next => ∃ waiting', Stage hidden lib k own w parent now classes waiting' next ∧
    Drawn now (· ∈ done.map Prod.fst) waiting waiting' ∧
    (forM done fun entry => Build.instantiateSymbol build fuel given k w entry.1 entry.2) now = .ok () next ∧
    ∀ first entry, first ++ [entry] <+: done → Turn hidden lib k own w parent now classes waiting never
      (Build.instantiateSymbol build fuel given k w) now next first entry) ?_ ?_ ?_
  · refine ⟨waiting, stage, .refl _ _ _, rfl, fun first entry within => ?_⟩
    simp at within
  · rintro done ⟨name, s⟩ rest ⟨⟩ mid all ⟨left, stage, drawn, taken, before⟩
    have fresh : name ∉ done.map Prod.fst := not_mem_done unique all
    have listed : s ∈ (mid.classOf k).symbols.values := by
      rw [stage.symbols]
      exact List.mem_map.2 ⟨(name, s), by simp [all], rfl⟩
    refine Ensures.bind (stage.anchor.instantiateSymbol safe fuel given name s listed).ran ?_
    rintro _ next ⟨⟨further, last, gone, _⟩, run⟩
    refine .pure ⟨further, stage.rebase last, ?_, forM_snoc taken run, fun first entry within => ?_⟩
    · refine (drawn.trans (gone.earlier stage.recalls)).mono fun n => ?_
      rw [List.map_append, List.mem_append]
      rintro (old | rfl)
      · exact .inl old
      · exact .inr List.mem_cons_self
    · obtain last_ | old := List.prefix_concat_iff.1 within
      · obtain ⟨rfl, rfl⟩ := List.append_inj' last_ rfl |>.imp_right List.singleton_inj.1
        refine ⟨mid, next, left, taken, stage, drawn.mono ?_, run, further, last⟩
        rintro n here
        exact .inr fun (same : n = name) => fresh (same ▸ here)
      · obtain ⟨before, after, left, turns, stage, drawn, run, rest, since⟩ := before first entry old
        exact ⟨before, after, left, turns, stage, drawn, run, further, since.rebase last⟩
  · rintro _ next ⟨waiting', stage, _, _, turns⟩
    exact ⟨waiting', stage, turns⟩

end Stage

-- What is done with an instance after the merging of its bases and before the turns of its components.
def prepare (build : Builder) (id : ClassId) (environment : ModificationId) : Build Unit := do
  for a in ← argumentsOf environment do
    redeclare build id a
  let lib ← get
  updateModification environment fun all => all.filter fun a => !(lib.argumentOf a).redeclare
  for (name, c) in (← classOf id).classes.entries do
    instantiateNested build id environment name c
  for a in ← argumentsOf environment do
    checkTarget id a

structure Prepared (hidden : Hidden) (build : Builder) (lib : Library) (k : ClassId) (own : Prop)
    (w : ModificationId) (parent : Option ClassId) (merged : Library)
    (classes : OrderedMap (Option String) ClassId) (left : List ArgumentId) (ready : Library) : Prop where
  stage : Stage hidden lib k own w parent merged classes left ready
  drawn : Drawn merged (some · ∈ classes.keys) (merged.modificationOf w).arguments left
  keys : classes.keys = (merged.classOf k).classes.keys
  nested : ∀ name c, (merged.classOf k).classes.find? name = some c →
    ∃ d e, classes.find? name = some e ∧ Becomes build lib d (some k) e ready ∧
      (d = merged.originOf c ∨ ∃ a ∈ (merged.modificationOf w).arguments, Replaces ready a name)

theorem Stage.prepare (safe : Safe build) (stage : Stage hidden lib k own w parent merged (merged.classOf k).classes
      (merged.modificationOf w).arguments merged) (unique : (merged.classOf k).classes.keys.Nodup) :
    (Build.prepare build k w).Ensures merged (fun _ ready => ∃ classes left,
      Prepared hidden build lib k own w parent merged classes left ready) anyhow := by
  unfold Build.prepare
  rw [ensures_bind, ensures_argumentsOf]
  refine (stage.redeclarations safe _).bind ?_
  rintro _ now₁ ⟨classes₁, stage₁, keys₁, replaced⟩
  rw [bind_get, ensures_bind, ensures_updateModification]
  have stage₂ := stage₁.anchor.modifyWaiting fun all => all.filter fun a => !(now₁.argumentOf a).redeclare
  have drawn₂ := (Drawn.redeclarations now₁ never (merged.modificationOf w).arguments).earlier stage₁.recalls
  rw [bind_classOf, stage₂.classes]
  refine (stage₂.anchor.nestedLoop safe (keys₁ ▸ unique)).bind ?_
  rintro _ now₃ ⟨classes₂, waiting₃, since₃, keys₂, made, drawn₃⟩
  rw [ensures_bind, ensures_argumentsOf]
  refine (since₃.anchor.meanwhile fun hidden => (sound_frame hidden).loop _ _ _ fun a _ =>
    (sound_frame hidden).andThen ((sound_frame hidden).checkTarget k a) fun _ =>
      (sound_frame hidden).returned _).bind fun _ ready since₄ => .pure ?_
  refine ⟨classes₂, waiting₃, stage₁.rebase (stage₂.rebase (since₃.rebase since₄)), ?_, keys₂.trans keys₁,
    fun name c found => ?_⟩
  · refine (drawn₂.trans (drawn₃.earlier (stage₁.rebase stage₂).recalls)).mono fun n => ?_
    rintro (no | inside)
    · exact no.elim
    · exact keys₂ ▸ inside
  · have present : name ∈ classes₁.keys := by
      rw [keys₁]
      exact (find?_isSome_iff _ _).1 (by rw [found]; rfl)
    obtain ⟨c₁, found₁⟩ := Option.isSome_iff_exists.1 ((find?_isSome_iff _ _).2 present)
    obtain ⟨e, there, becomes⟩ := made _ (mem_entries_of_find? _ _ _ found₁)
    have opened := since₃.opened_class there
    refine ⟨_, e, there, becomes.later (since₄.others e opened.1 fun same => opened.2 (.inr same)), ?_⟩
    obtain same | ⟨a, member, replaces⟩ := replaced name
    · left
      rw [found₁, found] at same
      cases same
      have mine := stage.opened_class found
      exact congrArg ClassDef.origin (stage₁.others c mine.1 fun same => mine.2 (.inr same))
    · exact .inr ⟨a, member, replaces.later (stage₂.rebase (since₃.rebase since₄)).recalls⟩

structure Course (hidden : Hidden) (fuel : Nat) (given : ClassId) (parent : Option ClassId)
    (lib : Library) (k : ClassId) (w : ModificationId) (merged ready : Library)
    (classes : OrderedMap (Option String) ClassId) (next : Library) : Prop where
  merging : Forming hidden lib k (∀ e, (lib.classOf given).role ≠ .instance_ e) w parent
    (lib.visible (fuel + 1) given) merged
  ran : prepare (instantiate fuel) k w merged = .ok () ready
  stage : ∃ left, Stage hidden lib k (∀ e, (lib.classOf given).role ≠ .instance_ e) w parent merged
    classes left next
  keys : classes.keys = (merged.classOf k).classes.keys
  nested : ∀ name c, (merged.classOf k).classes.find? name = some c →
    ∃ d e, classes.find? name = some e ∧ Becomes (instantiate fuel) lib d (some k) e next ∧
      (d = merged.originOf c ∨ ∃ a ∈ (merged.modificationOf w).arguments, Replaces next a name)
  turns : ∀ done entry, done ++ [entry] <+: (merged.classOf k).symbols.entries →
    Turn hidden lib k (∀ e, (lib.classOf given).role ≠ .instance_ e) w parent merged classes
      (merged.modificationOf w).arguments (some · ∈ classes.keys)
      (instantiateSymbol (instantiate fuel) (fuel + 1) given k w) ready next done entry

-- Each component has its turn in the state that the turns of the components before it have led to.
def EachTurn (fuel : Nat) (given k : ClassId) (w : ModificationId) (merged ready : Library)
    (holds : Library → Library → String × SymbolId → Prop) : Prop :=
  ∀ done entry, done ++ [entry] <+: (merged.classOf k).symbols.entries → ∃ before after,
    (forM done fun e => instantiateSymbol (instantiate fuel) (fuel + 1) given k w e.1 e.2) ready = .ok ⟨⟩ before ∧
    instantiateSymbol (instantiate fuel) (fuel + 1) given k w entry.1 entry.2 before = .ok () after ∧
    holds before after entry

theorem EachTurn.mono {fuel : Nat} {given k : ClassId} {w : ModificationId} {merged ready : Library}
    {holds holds' : Library → Library → String × SymbolId → Prop} (turns : EachTurn fuel given k w merged ready holds)
    (weaker : ∀ before after entry, holds before after entry → holds' before after entry) :
    EachTurn fuel given k w merged ready holds' := by
  intro done entry within
  obtain ⟨before, after, took, turn, here⟩ := turns done entry within
  exact ⟨before, after, took, turn, weaker before after entry here⟩

theorem Course.safe {fuel : Nat} {given k : ClassId} {parent : Option ClassId} {merged ready : Library}
    {w : ModificationId} {classes : OrderedMap (Option String) ClassId}
    (course : Course hidden fuel given parent lib k w merged ready classes next) (sound : lib.Sound hidden) :
    next.Sound hidden ∧ lib.Onward hidden next ∧ next.Open hidden k := by
  obtain ⟨left, stage⟩ := course.stage
  obtain ⟨table, forming⟩ := stage.forming
  refine ⟨forming.released, forming.onward, forming.known, fun hides => ?_⟩
  exact lt_irrefl _ ((sound.hiddenClasses k hides).trans_le forming.new)

end Modelica.Build
