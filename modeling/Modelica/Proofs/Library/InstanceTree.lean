import Modelica.Proofs.Library.Kept

set_option autoImplicit false

namespace Modelica

open OrderedMap

structure Stock where
  classes : ClassId → Prop
  symbols : SymbolId → Prop

namespace Stock

structure Within (stock more : Stock) : Prop where
  classes : ∀ c, stock.classes c → more.classes c
  symbols : ∀ s, stock.symbols s → more.symbols s

theorem Within.trans {stock more most : Stock} (first : stock.Within more)
    (second : more.Within most) : stock.Within most :=
  ⟨fun c has => second.classes c (first.classes c has), fun s has => second.symbols s (first.symbols s has)⟩

end Stock

namespace Library

def Elementary (lib : Library) (s : SymbolId) : Prop :=
  ∃ r, (lib.symbolOf s).type = .named r ∧ elementaryNames.contains r.name = true

def Settled (lib : Library) (finished : ClassId → Prop) (s : SymbolId) : Prop :=
  lib.Elementary s ∨
    ∃ c, finished c ∧ (lib.symbolOf s).type = .instance_ c ∧ (lib.symbolOf s).modification = none

structure Built (stock : Stock) (active : SymbolId → Prop) (lib : Library) : Prop where
  closed : lib.Closed
  known : ∀ c, stock.classes c → c.index < lib.classes.size
  role : ∀ c, stock.classes c → ∃ environment, (lib.classOf c).role = .instance_ environment
  nested : ∀ c, stock.classes c → ∀ e ∈ (lib.classOf c).classes.values, stock.classes e
  table : ∀ c, stock.classes c → ∀ s ∈ (lib.classOf c).symbols.values, stock.symbols s
  there : ∀ s, stock.symbols s → s.index < lib.symbols.size
  settled : ∀ s, stock.symbols s → active s ∨ lib.Settled stock.classes s

namespace Built

variable {stock : Stock} {active touched : SymbolId → Prop} {lib next : Library}

theorem settle (s : SymbolId) (built : lib.Built stock fun t => active t ∨ t = s)
    (settled : lib.Settled stock.classes s) : lib.Built stock active :=
  { built with
    settled := fun t has => by
      obtain (still | rfl) | done := built.settled t has
      · exact .inl still
      · exact .inr settled
      · exact .inr done }

variable (built : lib.Built stock active)
include built

theorem later (kept : lib.Kept touched next)
    (allowed : ∀ s, stock.symbols s → touched s → active s) : next.Built stock active := by
  refine ⟨kept.closed built.closed, fun c has => ?_, fun c has => ?_, fun c has => ?_, fun c has => ?_,
    fun s has => ?_, fun s has => ?_⟩
  any_goals
    obtain ⟨_, same⟩ := kept.classOf c (built.known c has)
    rw [same]
  · exact (built.known c has).trans_le kept.moreClasses
  · exact built.role c has
  · exact built.nested c has
  · exact built.table c has
  · exact (built.there s has).trans_le kept.moreSymbols
  · by_cases concerned : touched s
    · exact .inl (allowed s has concerned)
    · obtain ⟨type, modification, _⟩ := kept.symbolOf s (built.there s has) concerned
      unfold Settled Elementary
      rw [type, modification]
      exact built.settled s has

theorem modifyClass (k : ClassId) (apart : ¬ stock.classes k)
    (f : ClassDef → ClassDef) (holds : lib.Holds k (f (lib.classOf k))) : (lib.modifyClass k f).Built stock active := by
  have same : ∀ c, stock.classes c → (lib.modifyClass k f).classOf c = lib.classOf c := by
    intro c has
    refine classOf_modifyClass_ne lib k c f ?_
    rintro rfl
    exact apart has
  refine ⟨built.closed.modifyClass k f fun _ => holds, fun c has => ?_, fun c has => ?_,
    fun c has => ?_, fun c has => ?_, built.there, built.settled⟩
  · simpa using built.known c has
  all_goals rw [same c has]
  · exact built.role c has
  · exact built.nested c has
  · exact built.table c has

theorem weaken {more : SymbolId → Prop} (within : ∀ s, active s → more s) : lib.Built stock more :=
  { built with settled := fun s has => (built.settled s has).imp_left (within s) }

theorem own (symbols : List SymbolId)
    (there : ∀ s ∈ symbols, s.In lib) (exempt : ∀ s ∈ symbols, active s) :
    lib.Built ⟨stock.classes, fun s => stock.symbols s ∨ s ∈ symbols⟩ active :=
  { built with
    table := fun c has s member => .inl (built.table c has s member)
    there := fun s has => has.elim (built.there s) (there s)
    settled := fun s has => has.elim (built.settled s) fun new => .inl (exempt s new) }

theorem finish (k : ClassId) (known : k.In lib)
    (role : ∃ environment, (lib.classOf k).role = .instance_ environment)
    (nested : ∀ e ∈ (lib.classOf k).classes.values, stock.classes e)
    (table : ∀ s ∈ (lib.classOf k).symbols.values, stock.symbols s) :
    lib.Built ⟨fun c => stock.classes c ∨ c = k, stock.symbols⟩ active where
  __ := built
  known c has := by
    obtain old | rfl := has
    · exact built.known c old
    · exact known
  role c has := by
    obtain old | rfl := has
    · exact built.role c old
    · exact role
  nested c has e member := by
    obtain old | rfl := has
    · exact .inl (built.nested c old e member)
    · exact .inl (nested e member)
  table c has := by
    obtain old | rfl := has
    · exact built.table c old
    · exact table
  settled s has := by
    obtain still | elementary | ⟨c, done, same⟩ := built.settled s has
    · exact .inl still
    · exact .inr (.inl elementary)
    · exact .inr (.inr ⟨c, .inl done, same⟩)

end Built

end Library

namespace Build

open Library

structure Finished (stock : Stock) (active : SymbolId → Prop) (lib : Library) (k : ClassId)
    (more : Stock) (next : Library) : Prop where
  built : next.Built more active
  within : stock.Within more
  later : ∀ c, more.classes c → stock.classes c ∨ lib.classes.size ≤ c.index
  has : more.classes k
  kept : lib.Kept (fun _ => True) next

def Finishes (build : Builder) : Prop :=
  ∀ given modification parent stock active lib, lib.Built stock active →
    (∀ p, parent = some p → p.index < lib.classes.size) →
    (build given modification parent).Ensures lib
      (fun k next => ∃ more, Finished stock active lib k more next) fun _ _ => True

structure Making (stock : Stock) (lib : Library) (k : ClassId) (table : OrderedMap String SymbolId)
    (done : Option String → Prop) (more : Stock) (active : SymbolId → Prop) (now : Library) :
    Prop where
  built : now.Built more active
  within : stock.Within more
  later : ∀ c, more.classes c → stock.classes c ∨ lib.classes.size ≤ c.index
  kept : lib.Kept (fun _ => True) now
  new : lib.classes.size ≤ k.index
  known : k.index < now.classes.size
  apart : ¬ more.classes k
  role : ∃ environment, (now.classOf k).role = .instance_ environment
  keys : (now.classOf k).classes.keys.Nodup
  inside : ∀ e ∈ (now.classOf k).classes.entries, done e.1 → more.classes e.2
  same : (now.classOf k).symbols = table
  own : ∀ s ∈ table.values, more.symbols s

namespace Making

variable {stock more : Stock} {lib now next : Library} {k : ClassId}
  {table : OrderedMap String SymbolId} {done : Option String → Prop}
  {active touched : SymbolId → Prop}

theorem start {given : ClassId} (built : lib.Built stock active) (merged : Merged lib given k now) :
    Making stock lib k (now.classOf k).symbols never
      ⟨stock.classes, fun s => stock.symbols s ∨ s ∈ (now.classOf k).symbols.values⟩
      (fun s => active s ∨ s ∈ (now.classOf k).symbols.values) now where
  __ := merged
  built := ((built.weaken fun _ => .inl).later merged.kept fun _ _ => .inr).own _
    (merged.kept.closed built.closed k).symbols fun _ => .inr
  within := ⟨fun _ => id, fun _ => .inl⟩
  later _ := .inl
  kept := merged.kept.weaken fun _ _ _ => trivial
  apart has := absurd (built.known k has) (not_lt.2 merged.new)
  inside _ _ := False.elim
  same := rfl
  own _ := .inr

theorem finished (making : Making stock lib k table (fun _ => True) more active now) :
    Finished stock active lib k ⟨fun c => more.classes c ∨ c = k, more.symbols⟩ now where
  built := by
    refine making.built.finish k making.known making.role ?_ ?_
    · intro c member
      obtain ⟨e, listed, rfl⟩ := List.mem_map.1 member
      exact making.inside e listed trivial
    · rw [making.same]
      exact making.own
  within := ⟨fun c has => .inl (making.within.classes c has), making.within.symbols⟩
  later c has := by
    obtain old | rfl := has
    · exact making.later c old
    · exact .inr making.new
  has := .inr rfl
  kept := making.kept

section

variable (making : Making stock lib k table done more active now)
include making

theorem modifyClass {further : Option String → Prop} (f : ClassDef → ClassDef)
    (parent : (f (now.classOf k)).parent = (now.classOf k).parent)
    (role : (f (now.classOf k)).role = (now.classOf k).role)
    (symbols : (f (now.classOf k)).symbols = (now.classOf k).symbols) (keys : (f (now.classOf k)).classes.keys.Nodup)
    (inside : ∀ e ∈ (f (now.classOf k)).classes.entries, further e.1 → more.classes e.2) :
    Making stock lib k table further more active (now.modifyClass k f) := by
  have here : (now.modifyClass k f).classOf k = f (now.classOf k) := classOf_modifyClass_self now k f making.known
  have holds : now.Holds k (f (now.classOf k)) := by
    refine ⟨?_, ?_⟩
    · rw [parent]
      exact (making.built.closed k).parent
    · rw [symbols]
      exact (making.built.closed k).symbols
  refine ⟨making.built.modifyClass k making.apart f holds, making.within, making.later,
    making.kept.modifyClass k making.new f fun _ _ => holds, making.new, ?_, making.apart, ?_, ?_,
    ?_, ?_, making.own⟩
  · simpa using making.known
  all_goals rw [here]
  · rw [role]
    exact making.role
  · exact keys
  · exact inside
  · rw [symbols]
    exact making.same

theorem weaken {free : SymbolId → Prop} (within : ∀ s, active s → free s) :
    Making stock lib k table done more free now :=
  { making with built := making.built.weaken within }

theorem fewer {less : Option String → Prop} (within : ∀ name, less name → done name) :
    Making stock lib k table less more active now :=
  { making with inside := fun e member reached => making.inside e member (within e.1 reached) }

theorem after (kept : now.Kept touched next) (allowed : ∀ s, more.symbols s → touched s → active s) :
    Making stock lib k table done more active next := by
  obtain ⟨_, same⟩ := kept.classOf k making.known
  refine ⟨making.built.later kept allowed, making.within, making.later,
    making.kept.trans (kept.weaken fun _ _ _ => trivial), making.new,
    making.known.trans_le kept.moreClasses, making.apart, ?_, ?_, ?_, ?_, making.own⟩
  all_goals rw [same]
  · exact making.role
  · exact making.keys
  · exact making.inside
  · exact making.same

theorem quiet {α : Type} {x : Build α} (quiet : Quiet x) :
    x.Ensures now (fun _ next => Making stock lib k table done more active next) anyhow :=
  (quiet now).imp fun _ _ kept => making.after kept fun _ _ => False.elim

theorem modifySymbol (s : SymbolId) (f : Symbol → Symbol) (exempt : active s) :
    Making stock lib k table done more active (now.modifySymbol s f) :=
  making.after ((Kept.refl (· = s) now).modifySymbol s f rfl) fun _ _ same => same ▸ exempt

theorem build {build : Builder} (finishes : Finishes build) (given : ClassId)
    (modification : Option ModificationId) (parent : Option ClassId)
    (around : ∀ p, parent = some p → p.In now) :
    (build given modification parent).Ensures now (fun c next => ∃ most, most.classes c ∧
      Making stock lib k table done most active next) anyhow := by
  refine (finishes given modification parent more active now making.built around).imp ?_
  rintro c next ⟨most, finished⟩
  obtain ⟨_, same⟩ := finished.kept.classOf k making.known
  refine ⟨most, finished.has, finished.built, making.within.trans finished.within, fun e has => ?_,
    making.kept.trans finished.kept, making.new,
    making.known.trans_le finished.kept.moreClasses, fun has => ?_, ?_, ?_, ?_, ?_,
    fun s member => finished.within.symbols s (making.own s member)⟩
  · have := making.kept.moreClasses
    obtain old | new := finished.later e has
    · exact making.later e old
    · exact .inr (by omega)
  · have := making.known
    obtain old | new := finished.later k has
    · exact making.apart old
    · omega
  all_goals rw [same]
  · exact making.role
  · exact making.keys
  · exact fun e member finishedKey => finished.within.classes _ (making.inside e member finishedKey)
  · exact making.same

theorem insertClass (name : Option String) (c : ClassId) {further : Option String → Prop}
    (finished : further name → more.classes c)
    (others : ∀ other, other ≠ name → further other → done other) :
    Making stock lib k table further more active
      (now.modifyClass k fun d => { d with classes := d.classes.insert name c }) := by
  have unique : ((now.classOf k).classes.insert name c).keys.Nodup := nodup_insert _ making.keys name c
  refine making.modifyClass _ rfl rfl rfl unique fun e member reached => ?_
  by_cases changed : e.1 = name
  · have first := find?_of_mem _ unique e.1 e.2 member
    rw [changed, find?_insert_self] at first
    cases first
    exact finished (changed ▸ reached)
  · obtain rfl | old := mem_entries_insert _ name c e member
    · exact absurd rfl changed
    · exact making.inside e old (others e.1 changed reached)

end

end Making

theorem modifyMore_kept (s : SymbolId) (as : List ArgumentId) (lib : Library) (known : s.In lib) :
    (modifyMore s as).Ensures lib (fun _ next => lib.Kept (· = s) next ∧
      (next.symbolOf s).type = (lib.symbolOf s).type) anyhow := by
  unfold modifyMore
  rw [bind_symbolOf]
  split
  · unfold appendArguments
    rw [ensures_updateModification]
    exact ⟨(Kept.refl _ lib).modifyModification _ _, rfl⟩
  · rw [ensures_bind, ensures_addModification, ensures_updateSymbol]
    refine ⟨((Kept.refl _ lib).pushModification as).modifySymbol s _ rfl, ?_⟩
    rw [symbolOf_modifySymbol_self (lib.pushModification as) s _ known]
    rfl

theorem componentClass_kept (k : ClassId) (s : SymbolId) (lib : Library) :
    (componentClass k s).Ensures lib (fun found next => lib.Kept never next ∧
      (found = none → lib.Elementary s)) anyhow := by
  unfold componentClass
  rw [bind_symbolOf]
  split
  · exact .pure ⟨.refl _ lib, nofun⟩
  · exact .throw
  · next r type =>
    refine (instantiable_or_elementary lib k r).imp ?_
    exact fun found next ⟨ext, elementary⟩ => ⟨.of_extended ext, fun none => ⟨r, type, elementary none⟩⟩

namespace Making

variable {stock more : Stock} {lib now : Library} {k : ClassId}
  {table : OrderedMap String SymbolId} {done : Option String → Prop} {active : SymbolId → Prop}
  {build : Builder}

def Goes (stock : Stock) (lib : Library) (k : ClassId) (table : OrderedMap String SymbolId)
    (done : Option String → Prop) (active : SymbolId → Prop) (now : Library) : Prop :=
  ∃ more, Making stock lib k table done more active now

theorem settle (s : SymbolId) (making : Making stock lib k table done more (fun t => active t ∨ t = s) now)
    (settled : now.Settled more.classes s) : Making stock lib k table done more active now :=
  { making with built := making.built.settle s settled }

variable (finishes : Finishes build)
include finishes

theorem redeclareSymbol (making : Making stock lib k table done more active now) (new : ClassId)
    (oldName : Option String) (s : SymbolId) (exempt : active s) :
    (redeclareSymbol build new oldName s).Ensures now
      (fun _ next => Goes stock lib k table done active next) anyhow := by
  unfold Build.redeclareSymbol
  rw [bind_symbolOf]
  split
  · rw [bind_classOf]
    split
    · rw [bind_symbolOf, bind_classOf]
      have around := fun p has => ((making.built.closed new).parent p has).1
      refine (making.build finishes new _ _ around).bind ?_
      rintro c next ⟨most, _, making⟩
      rw [ensures_updateSymbol]
      exact ⟨most, making.modifySymbol s _ exempt⟩
    · exact .pure ⟨more, making⟩
  · exact .pure ⟨more, making⟩

theorem redeclare (making : Making stock lib k table never more active now) (a : ArgumentId)
    (exempt : ∀ s ∈ table.values, active s) :
    (redeclare build k a).Ensures now
      (fun _ next => Goes stock lib k table never active next) anyhow := by
  unfold Build.redeclare
  rw [bind_argumentOf]
  split
  · split
    · next s _ =>
      refine (making.quiet (kept_frame.classEntry k s.name)).bind fun old now making => ?_
      refine (making.quiet (kept_frame.instantiable _ s.component)).bind fun new now making => ?_
      rw [bind_updateClass, bind_classOf, bind_classOf]
      replace making := making.insertClass (some s.name) new False.elim fun _ _ => False.elim
      rw [making.same]
      refine (ensures_forEach _ _ (Goes stock lib k table never active)
        ⟨more, making⟩ ?_).bind fun _ _ goes => .pure goes
      rintro symbol listed next ⟨most, making⟩
      exact making.redeclareSymbol finishes new _ symbol (exempt symbol listed)
    · next c _ =>
      refine (ensures_forIn _ _ _ (fun _ _ => Goes stock lib k table never active)
        ⟨more, making⟩ ?_ fun _ _ => id).bind fun _ _ goes => .pure goes
      rintro _ s rest ⟨⟩ next _ ⟨most, making⟩
      rw [bind_symbolOf]
      unfold symbolEntry
      rw [ensures_bind, bind_classOf, making.same]
      split
      · next target found =>
        have listed : target ∈ table.values := mem_values_of_find? found
        rw [ensures_pure, ensures_bind, ensures_updateSymbol, ensures_pure]
        exact ⟨most, making.modifySymbol target _ (exempt _ listed)⟩
      · exact .throw
    · exact .throw
  · exact .pure ⟨more, making⟩

theorem instantiateNested (making : Making stock lib k table done more active now) (environment : ModificationId)
    (name : Option String) (c : ClassId) :
    (instantiateNested build k environment name c).Ensures now
      (fun _ next => Goes stock lib k table (fun other => done other ∨ other = name) active next)
      anyhow := by
  unfold Build.instantiateNested
  extract_lets rest
  have built : ∀ own now more, Making stock lib k table done more active now → (rest own).Ensures now (fun _ next =>
        Goes stock lib k table (fun other => done other ∨ other = name) active next)
        anyhow := by
    intro own now more making
    refine (making.quiet (kept_frame.nestedArguments own)).bind fun as now making => ?_
    refine (making.quiet (kept_frame.addModification as)).bind fun nested now making => ?_
    refine (making.build finishes c _ _ fun p same => ?_).bind ?_
    · cases same
      exact making.known
    · rintro new next ⟨most, finished, making⟩
      rw [ensures_updateClass]
      exact ⟨most, making.insertClass name new (fun _ => finished) fun _ other reached => reached.resolve_right other⟩
  split
  · exact (making.quiet (quiet_takeArguments environment _)).bind fun own now making => built own now more making
  · rw [ensures_bind, ensures_pure]
    exact built [] now more making

theorem instantiateSymbol (s : SymbolId) (listed : s ∈ table.values)
    (making : Making stock lib k table done more (fun t => active t ∨ t = s) now) (fuel : Nat)
    (given : ClassId) (environment : ModificationId) (name : String) :
    (instantiateSymbol build fuel given k environment name s).Ensures now
      (fun _ next => Goes stock lib k table done active next) anyhow := by
  unfold Build.instantiateSymbol
  refine (componentClass_kept k s now).bind ?_
  rintro found now₁ ⟨kept, elementary⟩
  have there := fun {most : Stock} {next : Library}
    (making : Making stock lib k table done most (fun t => active t ∨ t = s) next) =>
      making.built.there s (making.own s listed)
  split
  · -- a built-in type stays what it is
    refine (quiet_takeArguments environment name now₁).bind fun own now₂ further => ?_
    refine (kept_frame.componentArguments true own now₂).bind fun as now₃ last => ?_
    have kept := (kept.trans further).trans last
    have making₃ := making.after kept fun _ _ => False.elim
    refine (modifyMore_kept s as now₃ (there making₃)).imp ?_
    rintro _ next ⟨touched, type⟩
    refine ⟨more, (making₃.after touched fun _ _ same => .inr same).settle s (.inl ?_)⟩
    obtain ⟨r, named, builtin⟩ := elementary rfl
    exact ⟨r, by rw [type, (kept.symbolOf s (there making) not_false).1, named], builtin⟩
  · next c =>
    have making := making.after kept fun _ _ => False.elim
    refine (making.quiet (quiet_takeArguments environment name)).bind fun own now making => ?_
    refine (making.quiet (kept_frame.extendsBuiltin fuel c)).bind fun builtin now making => ?_
    refine (making.quiet (kept_frame.componentArguments builtin own)).bind fun as now making => ?_
    refine (modifyMore_kept s as now (there making)).bind ?_
    rintro _ now ⟨kept, _⟩
    have making := making.after kept fun t _ same => .inr same
    refine (making.quiet (kept_frame.noteScope k s)).bind fun _ now making => ?_
    rw [ensures_bind, ensures_tryCatch, bind_symbolOf, bind_classOf]
    have around := fun p has => ((making.built.closed c).parent p has).1
    refine (making.build finishes c _ _ around).mono ?_ fun _ next _ =>
      (kept_frame.pathText given next).bind fun _ _ _ => .throw
    rintro type next ⟨most, finished, making⟩
    rw [ensures_updateSymbol]
    refine ⟨most, (making.modifySymbol s _ (.inr rfl)).settle s (.inr ⟨type, finished, ?_⟩)⟩
    rw [symbolOf_modifySymbol_self next s _ (there making)]
    exact ⟨rfl, rfl⟩

theorem nestedLoop (making : Making stock lib k table never more active now)
    (environment : ModificationId) :
    (forIn (now.classOf k).classes.entries PUnit.unit fun (name, c) _ => do
      Build.instantiateNested build k environment name c
      pure (ForInStep.yield PUnit.unit)).Ensures now
      (fun _ next => Goes stock lib k table (fun _ => True) active next) anyhow := by
  refine ensures_forIn _ _ _ (fun done _ next => ∃ rest, (now.classOf k).classes.entries = done ++ rest ∧
      Goes stock lib k table (· ∉ rest.map Prod.fst) active next) ?_ ?_ ?_
  · refine ⟨_, rfl, more, { making with inside := fun e member absent => ?_ }⟩
    exact absurd (List.mem_map_of_mem member) absent
  · rintro done ⟨name, c⟩ rest ⟨⟩ next all ⟨left, same, most, making⟩
    obtain rfl : (name, c) :: rest = left := List.append_cancel_left (all.symm.trans same)
    refine (making.instantiateNested finishes environment name c).bind ?_
    rintro _ next ⟨most, making⟩
    refine .pure ⟨rest, by simp [all], most, making.fewer fun other absent => ?_⟩
    by_cases here : other = name
    · exact .inr here
    · exact .inl (by simpa [here] using absent)
  · rintro _ next ⟨rest, same, most, making⟩
    obtain rfl : rest = [] := List.append_right_eq_self.1 same.symm
    exact ⟨most, making.fewer fun _ _ => nofun⟩

theorem symbolLoop (making : Making stock lib k table done more (fun s => active s ∨ s ∈ table.values) now)
    (fuel : Nat) (given : ClassId) (environment : ModificationId) :
    (forIn table.entries PUnit.unit fun (name, s) _ => do
      Build.instantiateSymbol build fuel given k environment name s
      pure (ForInStep.yield PUnit.unit)).Ensures now
      (fun _ next => Goes stock lib k table done active next) anyhow := by
  refine ensures_forIn _ _ _ (fun past _ next => ∃ rest, table.entries = past ++ rest ∧
      Goes stock lib k table done (fun s => active s ∨ s ∈ rest.map Prod.snd) next) ?_ ?_ ?_
  · exact ⟨_, rfl, more, making⟩
  · rintro past ⟨name, s⟩ rest ⟨⟩ next all ⟨left, same, most, making⟩
    obtain rfl : (name, s) :: rest = left := List.append_cancel_left (all.symm.trans same)
    have listed : s ∈ table.values := List.mem_map.2 ⟨(name, s), by simp [all], rfl⟩
    have making : Making stock lib k table done most (fun t => (active t ∨ t ∈ rest.map Prod.snd) ∨ t = s) next := by
      refine making.weaken fun t free => ?_
      rw [List.map_cons, List.mem_cons] at free
      tauto
    refine (making.instantiateSymbol finishes s listed fuel given environment name).bind ?_
    rintro _ next goes
    exact .pure ⟨rest, by simp [all], goes⟩
  · rintro _ next ⟨rest, same, most, making⟩
    obtain rfl : rest = [] := List.append_right_eq_self.1 same.symm
    exact ⟨most, making.weaken fun t free => by simpa using free⟩

end Making

theorem instantiate_finishes (fuel : Nat) : Finishes (instantiate fuel) := by
  induction fuel with
  | zero => exact fun _ _ _ _ _ _ _ _ => .throw
  | succ fuel ih =>
    intro given modification parent stock active lib built around
    unfold instantiate
    refine (mergeBases_merges (fuel + 1) given modification parent lib built.closed around).bind ?_
    intro k now merged
    have making := Making.start built merged
    generalize (now.classOf k).symbols = table at making
    generalize Stock.mk _ _ = more at making
    refine (making.quiet (kept_frame.environmentOf k)).bind fun environment now making => ?_
    refine (making.quiet (kept_frame.argumentsOf environment)).bind fun as now making => ?_
    refine (ensures_forEach as _ (Making.Goes stock lib k table never _) ⟨more, making⟩ ?_).bind ?_
    · rintro a _ now ⟨more, making⟩
      exact making.redeclare ih a fun s => .inr
    rintro _ now ⟨more, making⟩
    refine (making.quiet kept_frame.seen).bind fun _ now making => ?_
    refine (making.quiet (quiet_updateModification environment _)).bind fun _ now making => ?_
    rw [bind_classOf]
    refine (making.nestedLoop ih environment).bind ?_
    rintro _ now ⟨more, making⟩
    refine (making.quiet (kept_frame.argumentsOf environment)).bind fun as now making => ?_
    refine (making.quiet (kept_frame.loop as _ _ fun a _ =>
      kept_frame.andThen (kept_frame.checkTarget k a) fun _ => kept_frame.returned _)).bind fun _ now making => ?_
    rw [bind_classOf, making.same]
    refine (making.symbolLoop ih (fuel + 1) given environment).bind ?_
    rintro _ now ⟨more, making⟩
    rw [bind_classOf]
    split
    · rw [bind_updateClass, ensures_pure]
      exact ⟨_, (making.modifyClass _ rfl rfl rfl making.keys making.inside).finished⟩
    · exact (ensures_pure k).2 ⟨_, making.finished⟩

end Build

namespace Library

-- The classes of an instance tree: those inside a class, and those of its components.
inductive InTree (lib : Library) (tree : ClassId) : ClassId → Prop where
  | root : InTree lib tree tree
  | nested {k c : ClassId} (above : InTree lib tree k)
      (listed : c ∈ (lib.classOf k).classes.values) : InTree lib tree c
  | component {k c : ClassId} {s : SymbolId} (above : InTree lib tree k)
      (listed : s ∈ (lib.classOf k).symbols.values)
      (type : (lib.symbolOf s).type = .instance_ c) : InTree lib tree c

-- An instance all of whose components have a built-in type, or an instance as their type and no modification
-- left.
structure Instantiated (lib : Library) (k : ClassId) : Prop where
  role : ∃ environment, (lib.classOf k).role = .instance_ environment
  components : ∀ s ∈ (lib.classOf k).symbols.values, lib.Elementary s ∨
    (∃ c, (lib.symbolOf s).type = .instance_ c) ∧ (lib.symbolOf s).modification = none

inductive Descent where
  | into (name : String)
  | through (component : String)

def below? (lib : Library) (k : ClassId) : List Descent → Option ClassId
  | [] => some k
  | .into name :: rest =>
    match (lib.classOf k).classes.find? (some name) with
    | some c => lib.below? c rest
    | none => none
  | .through component :: rest =>
    match (lib.classOf k).symbols.find? component with
    | none => none
    | some s =>
      match (lib.symbolOf s).type with
      | .instance_ c => lib.below? c rest
      | _ => none

variable {lib : Library} {tree k : ClassId} {stock : Stock}

theorem InTree.follow {c : ClassId} (path : List Descent) (above : lib.InTree tree k)
    (found : lib.below? k path = some c) : lib.InTree tree c := by
  induction path generalizing k with
  | nil =>
    cases found
    exact above
  | cons step rest ih =>
    cases step with
    | into name =>
      unfold below? at found
      split at found
      · next e listed =>
        have member : e ∈ (lib.classOf k).classes.values := mem_values_of_find? listed
        exact ih (.nested above member) found
      · contradiction
    | through component =>
      unfold below? at found
      split at found
      · contradiction
      · next s listed =>
        have member : s ∈ (lib.classOf k).symbols.values := mem_values_of_find? listed
        split at found
        · next e type => exact ih (.component above member type) found
        · contradiction

theorem Built.inTree (built : lib.Built stock fun _ => False) (has : stock.classes tree)
    (inside : lib.InTree tree k) : stock.classes k := by
  induction inside with
  | root => exact has
  | nested _ listed above => exact built.nested _ above _ listed
  | component _ listed type above =>
    obtain ⟨r, named, _⟩ | ⟨c, finished, same, _⟩ :=
      (built.settled _ (built.table _ above _ listed)).resolve_left not_false
    · rw [type] at named
      contradiction
    · rw [type] at same
      cases same
      exact finished

theorem Built.instantiated (built : lib.Built stock fun _ => False) (has : stock.classes k) : lib.Instantiated k := by
  refine ⟨built.role k has, fun s listed => ?_⟩
  obtain elementary | ⟨c, _, type, none⟩ := (built.settled s (built.table k has s listed)).resolve_left not_false
  · exact .inl elementary
  · exact .inr ⟨⟨c, type⟩, none⟩

theorem Built.empty (closed : lib.Closed) : lib.Built ⟨fun _ => False, fun _ => False⟩ fun _ => False :=
  ⟨closed, nofun, nofun, nofun, nofun, nofun, nofun⟩

end Library

namespace Build

open Library

-- Whenever instantiation ends well, every class of the tree is an instance whose components are settled.
theorem instantiate_settles_tree (lib : Library) (closed : lib.Closed) (fuel : Nat)
    (given : ClassId) (modification : Option ModificationId) (tree : ClassId) (next : Library)
    (run : instantiate fuel given modification (lib.classOf given).parent lib = .ok tree next)
    (k : ClassId) (inside : next.InTree tree k) : next.Instantiated k := by
  have around := fun p has => ((closed given).parent p has).1
  have finishes := instantiate_finishes fuel given modification _ _ _ lib (Built.empty closed) around
  obtain ⟨more, finished⟩ := (ensures_of_eq run).1 finishes
  exact finished.built.instantiated (finished.built.inTree finished.has inside)

end Build

namespace Library

instance (lib : Library) (c : ClassId) (d : ClassDef) : Decidable (lib.Holds c d) :=
  decidable_of_iff ((∀ p ∈ d.parent, p.index < lib.classes.size ∧ p ≠ c) ∧
    ∀ s ∈ d.symbols.values, s.index < lib.symbols.size)
    ⟨fun holds => ⟨holds.1, holds.2⟩, fun holds => ⟨holds.parent, holds.symbols⟩⟩

theorem closed_iff (lib : Library) : lib.Closed ↔ ∀ i < lib.classes.size, lib.Holds ⟨i⟩ (lib.classOf ⟨i⟩) := by
  refine ⟨fun closed i _ => closed ⟨i⟩, fun each c => ?_⟩
  by_cases known : c.In lib
  · exact each c.index known
  · rw [classOf_of_le lib c (by omega)]
    exact ⟨nofun, nofun⟩

instance (lib : Library) : Decidable lib.Closed := decidable_of_iff _ lib.closed_iff.symm

end Library

namespace Build

open Library

def model (n : Nat) (name : String) (around : Nat) (classes symbols : List (String × Nat))
    (bases : List ExtendsClause) : ClassDef :=
  { name := some name
    type := "model"
    extends_ := bases
    classes := ⟨classes.map fun e => (some e.1, ⟨e.2⟩)⟩
    symbols := ⟨symbols.map fun e => (e.1, ⟨e.2⟩)⟩
    parent := some ⟨around⟩
    origin := ⟨n⟩ }

def replacing (n : Nat) (name other : String) : Argument :=
  { value := .shortClass ⟨name, "model", .simple other⟩, redeclare := true, origin := ⟨n⟩ }

def tanks : Library where
  classes := #[
    { classes := ⟨[(some "Valve", ⟨1⟩), (some "Tank", ⟨2⟩), (some "Closed", ⟨3⟩)]⟩
      role := .root
      origin := ⟨0⟩ },
    model 1 "Valve" 0 [] [("flow", 0), ("area", 1)] [],
    model 2 "Tank" 0 [] [("valve", 2)] [],
    model 3 "Closed" 0 [] [] [⟨.simple "Tank", ⟨1⟩, .public_⟩]]
  symbols := #[
    { name := "flow", type := .named (.simple "Real") },
    { name := "area", type := .named (.simple "Real") },
    { name := "valve", type := .named (.simple "Valve"), modification := some ⟨0⟩ }]
  modifications := #[⟨[⟨0⟩]⟩, ⟨[⟨1⟩]⟩]
  arguments := #[
    { value := .element (.simple "area") [.literal (.integer 1)], origin := ⟨0⟩ },
    { value := .element (.mk "valve" [none] (some (.simple "flow"))) [.literal (.integer 0)]
      origin := ⟨1⟩ }]

theorem tanks_settled : tanks.Closed ∧ ∃ tree next valve,
    instantiate 3 ⟨3⟩ none (some ⟨0⟩) tanks = .ok tree next ∧
      next.below? tree [.through "valve"] = some valve ∧ next.Instantiated tree ∧
      next.Instantiated valve := by
  have closed : tanks.Closed := by decide
  obtain ⟨tree, next, run, found⟩ := exists_of_passes
    (instantiate 3 ⟨3⟩ none (tanks.classOf ⟨3⟩).parent) tanks
    (fun tree next => (next.below? tree [.through "valve"]).isSome) (by decide +kernel)
  obtain ⟨valve, below⟩ := Option.isSome_iff_exists.1 found
  have settled := instantiate_settles_tree tanks closed 3 ⟨3⟩ none tree next run
  exact ⟨closed, tree, next, valve, run, below, settled tree .root, settled valve
    (.follow [.through "valve"] .root below)⟩

-- Models of which one is instantiated twice, inside another of its own kind.
def sharing : Library where
  classes := #[
    { classes := ⟨[(some "X", ⟨1⟩), (some "T", ⟨7⟩), (some "B", ⟨8⟩), (some "W", ⟨9⟩),
        (some "V", ⟨10⟩)]⟩
      role := .root
      origin := ⟨0⟩ },
    model 1 "X" 0 [("E", 2), ("F", 3), ("P", 4), ("Z", 6)] [] [],
    model 2 "E" 1 [] [("e", 0)] [],
    model 3 "F" 1 [] [("w", 1)] [],
    model 4 "P" 1 [("U", 5)] [] [⟨.simple "T", ⟨0⟩, .private_⟩],
    model 5 "U" 4 [] [] [],
    model 6 "Z" 1 [] [] [],
    model 7 "T" 0 [] [("x", 2), ("z", 3), ("a", 4)] [],
    model 8 "B" 0 [] [("x", 5)] [],
    model 9 "W" 0 [] [] [⟨.simple "X", ⟨1⟩, .private_⟩],
    model 10 "V" 0 [] [] [⟨.simple "X", ⟨2⟩, .private_⟩]]
  symbols := #[
    { name := "e", type := .named (.mk "P" [none] (some (.simple "U"))) },
    { name := "w", type := .named (.simple "W") },
    { name := "x", type := .named (.simple "Real") },
    { name := "z", type := .named (.simple "Z") },
    { name := "a", type := .named (.simple "B") },
    { name := "x", type := .named (.simple "Real") }]
  modifications := #[⟨[⟨0⟩]⟩, ⟨[⟨1⟩, ⟨2⟩]⟩, ⟨[⟨3⟩]⟩]
  arguments := #[
    { value := .element (.mk "a" [none] (some (.simple "x"))) [.literal (.integer 3)]
      origin := ⟨0⟩ },
    replacing 1 "F" "B",
    replacing 2 "Z" "V",
    replacing 3 "F" "B"]

set_option maxRecDepth 10000 in
-- An argument that waits in two instances is taken on by one of them, and is left in the other.
theorem shared_argument_left : ∃ tree next k,
    instantiate 8 ⟨1⟩ none (some ⟨0⟩) sharing = .ok tree next ∧ next.InTree tree k ∧
      next.waiting k ≠ [] := by
  obtain ⟨tree, next, run, found⟩ := exists_of_passes
    (instantiate 8 ⟨1⟩ none (some ⟨0⟩)) sharing (fun tree next =>
      ((next.below? tree [.into "F", .through "w", .into "P"]).map next.waiting).any (!·.isEmpty))
    (by decide +kernel)
  obtain ⟨as, has, left⟩ := (Option.any_eq_true _ _).1 found
  obtain ⟨k, below, rfl⟩ := Option.map_eq_some_iff.1 has
  refine ⟨tree, next, k, run, .follow _ .root below, fun empty => ?_⟩
  simp [empty] at left

end Build

end Modelica
