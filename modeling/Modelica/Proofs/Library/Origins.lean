import Modelica.Proofs.Library.Copying

set_option autoImplicit false

namespace Modelica

def ClassDef.bases (d : ClassDef) : List ComponentRef := d.extends_.map (·.component)

namespace Library

def originOf (lib : Library) (c : ClassId) : ClassId := (lib.classOf c).origin

-- The same surroundings and bases, and inside copies of the same classes under the same names.
structure Twins (lib : Library) (d e : ClassDef) : Prop where
  parent : d.parent = e.parent
  bases : d.bases = e.bases
  classes : d.classes.mapValues lib.originOf = e.classes.mapValues lib.originOf

theorem Twins.refl (lib : Library) (d : ClassDef) : lib.Twins d d := ⟨rfl, rfl, rfl⟩

structure Hidden where
  classes : ClassId → Prop
  modifications : ModificationId → Prop

def Open (lib : Library) (hidden : Hidden) (c : ClassId) : Prop :=
  c.index < lib.classes.size ∧ ¬ hidden.classes c

def Free (lib : Library) (hidden : Hidden) (m : ModificationId) : Prop :=
  m.index < lib.modifications.size ∧ ¬ hidden.modifications m

-- What the class leads to is there and not hidden, and it is like the class that is copied in its place. A
-- hidden class has no copies.
structure SoundClass (hidden : Hidden) (lib : Library) (c : ClassId) (d : ClassDef) : Prop where
  holds : lib.Holds c d
  nested : ∀ e ∈ d.classes.values, lib.Open hidden e
  functions : ∀ e ∈ d.functions.values, lib.Open hidden e
  environment : ∀ m, d.role = .instance_ m → m.index < lib.modifications.size
  secret : ∀ m, d.role = .instance_ m → hidden.modifications m → hidden.classes c
  origin : d.origin.index < lib.classes.size
  original : lib.originOf d.origin = d.origin
  uncopied : hidden.classes d.origin → d.origin = c
  twins : lib.Twins d (lib.classOf d.origin)

structure SoundSymbol (hidden : Hidden) (lib : Library) (d : Symbol) : Prop where
  type : ∀ c, d.type = .instance_ c → lib.Open hidden c
  connector : ∀ c, d.connectorType = some c → lib.Open hidden c
  modification : ∀ m, d.modification = some m → lib.Free hidden m

structure Sound (hidden : Hidden) (lib : Library) : Prop where
  hiddenClasses : ∀ c, hidden.classes c → c.index < lib.classes.size
  hiddenModifications : ∀ m, hidden.modifications m → m.index < lib.modifications.size
  classes : ∀ c, c.index < lib.classes.size → lib.SoundClass hidden c (lib.classOf c)
  symbols : ∀ s, s.index < lib.symbols.size → lib.SoundSymbol hidden (lib.symbolOf s)

structure Grown (lib next : Library) : Prop where
  moreClasses : lib.classes.size ≤ next.classes.size
  moreSymbols : lib.symbols.size ≤ next.symbols.size
  moreModifications : lib.modifications.size ≤ next.modifications.size
  classOf : ∀ c, c.index < lib.classes.size → next.classOf c = lib.classOf c

namespace Grown

variable {hidden : Hidden} {lib now next : Library}

theorem refl (lib : Library) : lib.Grown lib := ⟨le_rfl, le_rfl, le_rfl, fun _ _ => rfl⟩

theorem trans (first : lib.Grown now) (second : now.Grown next) : lib.Grown next where
  moreClasses := first.moreClasses.trans second.moreClasses
  moreSymbols := first.moreSymbols.trans second.moreSymbols
  moreModifications := first.moreModifications.trans second.moreModifications
  classOf c known := by
    rw [second.classOf c (known.trans_le first.moreClasses), first.classOf c known]

section

variable (grown : lib.Grown now)
include grown

theorem touch {e : Entry} (touches : now.Touches next e)
    (new : ∀ c, e = .class_ c → c.New lib) : lib.Grown next where
  moreClasses := grown.moreClasses.trans touches.moreClasses
  moreSymbols := grown.moreSymbols.trans touches.moreSymbols
  moreModifications := grown.moreModifications.trans touches.moreModifications
  classOf c known := by
    have there := known.trans_le grown.moreClasses
    refine Eq.trans (touches.same (.class_ c) there ?_) (grown.classOf c known)
    rintro rfl
    exact not_lt.2 (new c rfl) known

theorem pushClass (d : ClassDef) : lib.Grown (now.pushClass d) := by
  refine grown.touch (now.touches_pushClass d) ?_
  rintro c ⟨⟩
  exact grown.moreClasses

theorem modifyClass (c : ClassId) (new : c.New lib) (f : ClassDef → ClassDef) :
    lib.Grown (now.modifyClass c f) := by
  refine grown.touch (now.touches_modifyClass c f) ?_
  rintro d ⟨⟩
  exact new

theorem pushSymbol (d : Symbol) : lib.Grown (now.pushSymbol d) := grown.touch (now.touches_pushSymbol d) (by simp)

theorem modifySymbol (s : SymbolId) (f : Symbol → Symbol) : lib.Grown (now.modifySymbol s f) :=
  grown.touch (now.touches_modifySymbol s f) (by simp)

theorem pushModification (as : List ArgumentId) : lib.Grown (now.pushModification as) :=
  grown.touch (now.touches_pushModification as) (by simp)

theorem modifyModification (m : ModificationId) (f : List ArgumentId → List ArgumentId) :
    lib.Grown (now.modifyModification m f) :=
  grown.touch (now.touches_modifyModification m f) (by simp)

theorem pushArgument (a : Argument) : lib.Grown (now.pushArgument a) :=
  grown.touch (now.touches_pushArgument a) (by simp)

theorem modifyArgument (a : ArgumentId) (f : Argument → Argument) : lib.Grown (now.modifyArgument a f) :=
  grown.touch (now.touches_modifyArgument a f) (by simp)

end

section

variable (grown : lib.Grown next)

include grown

theorem originOf (c : ClassId) (known : c.In lib) :
    next.originOf c = lib.originOf c := congrArg ClassDef.origin (grown.classOf c known)

theorem known {c : ClassId} (known : c.In lib) : c.In next :=
  known.trans_le grown.moreClasses

theorem opened {c : ClassId} (has : lib.Open hidden c) : next.Open hidden c := ⟨grown.known has.1, has.2⟩

theorem free {m : ModificationId} (has : lib.Free hidden m) : next.Free hidden m :=
  ⟨has.1.trans_le grown.moreModifications, has.2⟩

theorem mapValues (d : ClassDef) (known : ∀ e ∈ d.classes.values, e.In lib) :
    d.classes.mapValues next.originOf = d.classes.mapValues lib.originOf :=
  OrderedMap.mapValues_congr _ _ _ fun e member => grown.originOf e (known e member)

theorem twins {d e : ClassDef} (twins : lib.Twins d e) (first : ∀ c ∈ d.classes.values, c.In lib)
    (second : ∀ c ∈ e.classes.values, c.In lib) : next.Twins d e :=
  ⟨twins.parent, twins.bases, by
    rw [grown.mapValues d first, grown.mapValues e second, twins.classes]⟩

theorem soundSymbol {d : Symbol} (sound : lib.SoundSymbol hidden d) : next.SoundSymbol hidden d :=
  ⟨fun c has => grown.opened (sound.type c has), fun c has => grown.opened (sound.connector c has),
    fun m has => grown.free (sound.modification m has)⟩

theorem soundClass (sound : lib.Sound hidden) {c : ClassId} {d : ClassDef}
    (own : lib.SoundClass hidden c d) : next.SoundClass hidden c d where
  __ := own
  holds := own.holds.mono grown.moreClasses grown.moreSymbols
  nested e member := grown.opened (own.nested e member)
  functions e member := grown.opened (own.functions e member)
  environment m has := (own.environment m has).trans_le grown.moreModifications
  origin := grown.known own.origin
  original := (grown.originOf _ own.origin).trans own.original
  twins := by
    rw [grown.classOf _ own.origin]
    exact grown.twins own.twins (fun e member => (own.nested e member).1)
      fun e member => ((sound.classes _ own.origin).nested e member).1

end

end Grown

theorem originOf_modifyClass (lib : Library) (c : ClassId) (f : ClassDef → ClassDef)
    (origin : (f (lib.classOf c)).origin = lib.originOf c) : (lib.modifyClass c f).originOf = lib.originOf := by
  funext d
  unfold Library.originOf
  refine classOf_modifyClass_of lib c d f (motive := (·.origin = _)) rfl ?_
  rintro rfl
  exact origin

namespace Sound

variable {hidden : Hidden} {lib : Library}

section

variable (sound : lib.Sound hidden)
include sound

theorem closed : lib.Closed := by
  intro c
  by_cases known : c.In lib
  · exact (sound.classes c known).holds
  · rw [classOf_of_le lib c (by omega)]
    exact ⟨nofun, nofun⟩

theorem nested {c e : ClassId} (member : e ∈ (lib.classOf c).classes.values) : lib.Open hidden e := by
  by_cases known : c.In lib
  · exact (sound.classes c known).nested e member
  · rw [classOf_of_le lib c (by omega)] at member
    contradiction

theorem open_originOf {c : ClassId} (has : lib.Open hidden c) : lib.Open hidden (lib.originOf c) := by
  have own := sound.classes c has.1
  refine ⟨own.origin, fun concealed => has.2 ?_⟩
  rw [← own.uncopied concealed]
  exact concealed

theorem originOf_originOf {c : ClassId} (known : c.In lib) :
    lib.originOf (lib.originOf c) = lib.originOf c :=
  (sound.classes c known).original

theorem twins {c : ClassId} (known : c.In lib) :
    lib.Twins (lib.classOf c) (lib.classOf (lib.originOf c)) := (sound.classes c known).twins

theorem symbol (s : SymbolId) : lib.SoundSymbol hidden (lib.symbolOf s) := by
  by_cases known : s.In lib
  · exact sound.symbols s known
  · have blank : lib.symbolOf s = {} := by
      simp [Library.symbolOf, not_lt.1 known]
    rw [blank]
    exact ⟨nofun, nofun, nofun⟩

theorem pushClass (d : ClassDef) (own : (lib.pushClass d).SoundClass hidden lib.nextClass d) :
    (lib.pushClass d).Sound hidden := by
  have grown := (Grown.refl lib).pushClass d
  refine ⟨fun c has => grown.known (sound.hiddenClasses c has), sound.hiddenModifications,
    fun c known => ?_, fun s known => grown.soundSymbol (sound.symbols s known)⟩
  rw [classes_size_pushClass] at known
  by_cases last : c.index = lib.classes.size
  · obtain rfl : c = lib.nextClass := by
      cases c
      cases last
      rfl
    rw [classOf_pushClass_self]
    exact own
  · rw [classOf_pushClass_ne lib c d last]
    exact grown.soundClass sound (sound.classes c (by omega))

theorem modifyClass (c : ClassId) (f : ClassDef → ClassDef) (origin : (f (lib.classOf c)).origin = lib.originOf c)
    (alone : ∀ d, d.In lib → lib.originOf d = c → d = c)
    (own : (lib.modifyClass c f).SoundClass hidden c (f (lib.classOf c))) : (lib.modifyClass c f).Sound hidden := by
  have sizes : (lib.modifyClass c f).classes.size = lib.classes.size := classes_size_modifyClass lib c f
  have same := originOf_modifyClass lib c f origin
  have opens : ∀ e, lib.Open hidden e → (lib.modifyClass c f).Open hidden e := fun e has => ⟨sizes ▸ has.1, has.2⟩
  refine ⟨fun d has => sizes ▸ sound.hiddenClasses d has, sound.hiddenModifications,
    fun d known => ?_, fun s known => ?_⟩
  · rw [sizes] at known
    by_cases here : c = d
    · subst here
      rw [classOf_modifyClass_self lib c f known]
      exact own
    · have before := sound.classes d known
      have other : c ≠ (lib.classOf d).origin := fun its => here (alone d known its.symm).symm
      rw [classOf_modifyClass_ne lib c d f here]
      refine ⟨before.holds.mono (Nat.le_of_eq sizes.symm) le_rfl, fun e member => opens e (before.nested e member),
        fun e member => opens e (before.functions e member), before.environment, before.secret,
        sizes ▸ before.origin, by rw [same]; exact before.original, before.uncopied, ?_⟩
      rw [classOf_modifyClass_ne lib c _ f other]
      exact ⟨before.twins.parent, before.twins.bases, by rw [same]; exact before.twins.classes⟩
  · have before := sound.symbols s known
    exact ⟨fun e has => opens e (before.type e has), fun e has => opens e (before.connector e has), before.modification⟩

theorem grow {next : Library} (grown : lib.Grown next) (classes : next.classes = lib.classes)
    (symbols : ∀ s, s.In next → lib.SoundSymbol hidden (next.symbolOf s)) : next.Sound hidden := by
  refine ⟨fun c has => grown.known (sound.hiddenClasses c has), fun m has =>
    (sound.hiddenModifications m has).trans_le grown.moreModifications,
    fun c known => ?_, fun s known => grown.soundSymbol (symbols s known)⟩
  rw [classes] at known
  rw [grown.classOf c known]
  exact grown.soundClass sound (sound.classes c known)

theorem pushSymbol (d : Symbol) (own : lib.SoundSymbol hidden d) : (lib.pushSymbol d).Sound hidden :=
  sound.grow ((Grown.refl lib).pushSymbol d) rfl fun s _ =>
    getD_push_of lib.symbols _ _ _ (motive := lib.SoundSymbol hidden) (sound.symbol s) own

theorem modifySymbol (s : SymbolId) (f : Symbol → Symbol)
    (own : lib.SoundSymbol hidden (f (lib.symbolOf s))) : (lib.modifySymbol s f).Sound hidden :=
  sound.grow ((Grown.refl lib).modifySymbol s f) rfl fun t _ =>
    symbolOf_modifySymbol_of lib s t f (motive := lib.SoundSymbol hidden) (sound.symbol t) fun same => same ▸ own

theorem pushModification (as : List ArgumentId) : (lib.pushModification as).Sound hidden :=
  sound.grow ((Grown.refl lib).pushModification as) rfl sound.symbols

theorem modifyModification (m : ModificationId) (f : List ArgumentId → List ArgumentId) :
    (lib.modifyModification m f).Sound hidden :=
  sound.grow ((Grown.refl lib).modifyModification m f) rfl sound.symbols

theorem pushArgument (a : Argument) : (lib.pushArgument a).Sound hidden :=
  sound.grow ((Grown.refl lib).pushArgument a) rfl sound.symbols

theorem modifyArgument (a : ArgumentId) (f : Argument → Argument) : (lib.modifyArgument a f).Sound hidden :=
  sound.grow ((Grown.refl lib).modifyArgument a f) rfl sound.symbols

end

end Sound

end Library

open Library Build

namespace Copy

structure Memo.Sound (hidden : Hidden) (now : Library) (memo : Memo) : Prop where
  known : ∀ p ∈ memo.classes, p.1.index < now.classes.size ∧ p.2.index < now.classes.size
  origin : ∀ p ∈ memo.classes, now.originOf p.2 = now.originOf p.1
  apart : ∀ p ∈ memo.classes, hidden.classes p.2 → hidden.classes p.1
  symbols : ∀ p ∈ memo.symbols, p.2.index < now.symbols.size
  modifications : ∀ p ∈ memo.modifications, now.Free hidden p.2

namespace Memo.Sound

variable {hidden : Hidden} {now next : Library} {memo : Memo}

theorem empty (hidden : Hidden) (now : Library) : ({} : Memo).Sound hidden now := ⟨nofun, nofun, nofun, nofun, nofun⟩

section

variable (noted : memo.Sound hidden now)
include noted

theorem later (grown : now.Grown next) : memo.Sound hidden next where
  known p member := ⟨grown.known (noted.known p member).1, grown.known (noted.known p member).2⟩
  origin p member := by
    rw [grown.originOf _ (noted.known p member).1, grown.originOf _ (noted.known p member).2, noted.origin p member]
  apart := noted.apart
  symbols p member := (noted.symbols p member).trans_le grown.moreSymbols
  modifications p member := grown.free (noted.modifications p member)

theorem modifyClass (c : ClassId) (f : ClassDef → ClassDef)
    (origins : (now.modifyClass c f).originOf = now.originOf) :
    memo.Sound hidden (now.modifyClass c f) where
  __ := noted
  known p member := by simpa using noted.known p member
  origin p member := by
    rw [origins]
    exact noted.origin p member

theorem note (old new : ClassId)
    (known : old.In now ∧ new.In now)
    (origin : now.originOf new = now.originOf old)
    (apart : hidden.classes new → hidden.classes old) :
    ({ memo with classes := (old, new) :: memo.classes } : Memo).Sound hidden now :=
  ⟨List.forall_mem_cons.2 ⟨known, noted.known⟩, List.forall_mem_cons.2 ⟨origin, noted.origin⟩,
    List.forall_mem_cons.2 ⟨apart, noted.apart⟩, noted.symbols, noted.modifications⟩

end

end Memo.Sound

def growing : Pace where
  onward := Grown
  refl := .refl
  trans := .trans
  fails _ := True

structure Going (hidden : Hidden) (start : Library) (memo : Memo) (now : Library) : Prop where
  since : start.Grown now
  sound : now.Sound hidden
  noted : memo.Sound hidden now

def Matches (hidden : Hidden) (lib : Library) : Entry → Entry → Prop
  | .class_ c, .class_ d => lib.Open hidden d ∧ lib.originOf d = lib.originOf c
  | .symbol _, .symbol t => t.index < lib.symbols.size
  | .modification _, .modification n => lib.Free hidden n
  | _, _ => True

theorem Matches.later {hidden : Hidden} {now next : Library} {c d : ClassId}
    (is : Matches hidden now (.class_ c) (.class_ d)) (known : c.In now)
    (grown : now.Grown next) : Matches hidden next (.class_ c) (.class_ d) :=
  ⟨grown.opened is.1, by rw [grown.originOf d is.1.1, grown.originOf c known, is.2]⟩

variable {hidden : Hidden} {now : Library}

theorem Memo.Sound.is {memo : Memo} {c e : ClassId} (noted : memo.Sound hidden now) (opened : now.Open hidden c)
    (found : memo.classes.lookup c = some e) : Matches hidden now (.class_ c) (.class_ e) :=
  have listed := mem_of_lookup _ _ _ found
  ⟨⟨(noted.known _ listed).2, fun hides => opened.2 (noted.apart _ listed hides)⟩, noted.origin _ listed⟩

theorem soundClass_begun (sound : now.Sound hidden) (c : ClassId) (opened : now.Open hidden c)
    (original : now.originOf c = c) :
    (now.pushClass { now.classOf c with origin := c }).SoundClass hidden now.nextClass
      { now.classOf c with origin := c } := by
  have grown := (Grown.refl now).pushClass { now.classOf c with origin := c }
  have own := grown.soundClass sound (sound.classes c opened.1)
  have around := (sound.classes c opened.1).holds.parent
  refine ⟨⟨fun p has => ⟨(own.holds.parent p has).1, ?_⟩, own.holds.symbols⟩, own.nested,
    own.functions, own.environment, fun m has hides => absurd (own.secret m has hides) opened.2,
    grown.known opened.1, (grown.originOf c opened.1).trans original,
    fun hides => absurd hides opened.2, ?_⟩
  · rintro rfl
    exact lt_irrefl _ (around _ has).1
  · show Library.Twins _ _ (Library.classOf _ c)
    rw [grown.classOf c opened.1]
    exact ⟨rfl, rfl, rfl⟩

theorem sound_store (sound : now.Sound hidden) (c e : ClassId)
    (known : e.In now) (made : now.originOf e = c) (other : c ≠ e)
    (opened : now.Open hidden c) (d : ClassDef) (origin : d.origin = c) (holds : now.Holds e d)
    (nested : ∀ x ∈ d.classes.values, now.Open hidden x) (functions : ∀ x ∈ d.functions.values, now.Open hidden x)
    (environment : ∀ m, d.role = .instance_ m → now.Free hidden m)
    (twins : now.Twins d (now.classOf c)) : (now.modifyClass e fun _ => d).Sound hidden := by
  have sizes := classes_size_modifyClass now e fun _ => d
  have original : now.originOf c = c := made ▸ sound.originOf_originOf known
  have opens : ∀ x, now.Open hidden x → (now.modifyClass e fun _ => d).Open hidden x :=
    fun x has => ⟨sizes ▸ has.1, has.2⟩
  have same : (now.modifyClass e fun _ => d).classOf c = now.classOf c := classOf_modifyClass_ne now e c _ other.symm
  have origins := originOf_modifyClass now e (fun _ => d) (origin.trans made.symm)
  refine sound.modifyClass e _ (origin.trans made.symm) ?_ ?_
  · -- the copy is not what is copied in its place, so no other class is a copy of it
    intro x inside copied
    have itself := sound.originOf_originOf inside
    rw [copied, made] at itself
    exact absurd itself other
  · refine ⟨holds.mono (Nat.le_of_eq sizes.symm) le_rfl, fun x member => opens x (nested x member),
      fun x member => opens x (functions x member), fun m has => (environment m has).1,
      fun m has hides => absurd hides (environment m has).2, ?_, ?_, ?_, ?_⟩
    · rw [origin, sizes]
      exact opened.1
    · rw [origin, origins, original]
    · intro hides
      exact absurd (origin ▸ hides) opened.2
    · rw [origin, same]
      exact ⟨twins.parent, twins.bases, by rw [origins]; exact twins.classes⟩

abbrev grows (hidden : Hidden) (start : Library) := growing.staging (Going hidden start)

structure Secure (hidden : Hidden) (fuel : Nat) : Prop where
  classes : ∀ start c, start.Open hidden c → (grows hidden start).gives
    (copyClass fuel c) fun i d => Matches hidden i (.class_ c) (.class_ d)
  origins : ∀ start c, start.Open hidden c → start.originOf c = c →
    (grows hidden start).gives (copyOrigin fuel c) fun i d =>
      Matches hidden i (.class_ c) (.class_ d)
  symbols : ∀ start s, (grows hidden start).gives (copySymbol fuel s) fun i t =>
    Matches hidden i (.symbol s) (.symbol t)
  modifications : ∀ start m, (grows hidden start).gives (copyModification fuel m)
    fun i n => Matches hidden i (.modification m) (.modification n)
  arguments : ∀ start a, (grows hidden start).gives (copyArgument fuel a)
    fun _ _ => True
  values : ∀ start v, (grows hidden start).gives (copyArgumentValue fuel v)
    fun _ _ => True

section Step

variable {hidden : Hidden} {fuel : Nat} (secure : Secure hidden fuel) (start : Library)

include secure

theorem Secure.copyClass (c : ClassId) (opened : start.Open hidden c) :
    (grows hidden start).gives (copyClass (fuel + 1) c) fun i d => Matches hidden i (.class_ c) (.class_ d) := by
  intro memo now going
  obtain ⟨since, sound, noted⟩ := going
  replace opened := since.opened opened
  unfold Copy.copyClass
  refine .get ?_
  split
  · next e found =>
    exact .pure ⟨since, sound, noted⟩ (.refl now) fun _ => (noted.is opened found).later opened.1
  refine .lift ((ensures_classOf c).2 ?_)
  have original := sound.originOf_originOf opened.1
  have first := sound.open_originOf opened
  refine .bind (secure.origins now _ first original memo now ⟨.refl now, sound, noted⟩)
    fun e memo next going grown made => ?_
  have is : Matches hidden next (.class_ c) (.class_ e) := by
    obtain ⟨there, same⟩ := made next (.refl next)
    refine ⟨there, ?_⟩
    rw [same, grown.originOf c opened.1]
    exact (grown.originOf _ first.1).trans original
  have known := grown.known opened.1
  split
  · exact .pure ⟨since.trans grown, going.sound, going.noted⟩ grown fun _ => is.later known
  · exact .modify _ (.pure ⟨since.trans grown, going.sound, going.noted.note c e ⟨known, is.1.1⟩ is.2
      fun hides => absurd hides is.1.2⟩ grown fun _ => is.later known)

omit start in
theorem Secure.copyNew (c : ClassId) (memo : Memo) (now : Library) (sound : now.Sound hidden)
    (noted : memo.Sound hidden now) (opened : now.Open hidden c) (original : now.originOf c = c) :
    Takes growing (Going hidden now) now (copyNew fuel c (now.classOf c)) memo now fun i d =>
      Matches hidden i (.class_ c) (.class_ d) := by
  unfold Copy.copyNew
  refine .lift ((ensures_addClass _).2 (.modify _ ?_))
  have own := sound.classes c opened.1
  have begun := sound.pushClass _ (soundClass_begun sound c opened original)
  have grown := (Grown.refl now).pushClass { now.classOf c with origin := c }
  have made : (now.pushClass { now.classOf c with origin := c }).originOf now.nextClass = c :=
    congrArg ClassDef.origin (classOf_pushClass_self now _)
  have known : now.nextClass.index < (now.pushClass { now.classOf c with origin := c }).classes.size := nextClass_lt ..
  have apart : ¬ hidden.classes now.nextClass := fun hides => lt_irrefl _ (sound.hiddenClasses _ hides)
  have fresh : now.nextClass.New now := le_rfl
  have other : c ≠ now.nextClass := by
    rintro rfl
    exact lt_irrefl _ opened.1
  have around : ∀ p, (now.classOf c).parent = some p → p.index < now.nextClass.index :=
    fun p has => (own.holds.parent p has).1
  generalize now.nextClass = e at *
  generalize now.pushClass { now.classOf c with origin := c } = mid at *
  have noting : ∀ (memo : Memo) next, memo.Sound hidden next → mid.Grown next →
      ({ memo with classes := (c, e) :: memo.classes } : Memo).Sound hidden next :=
    fun memo next noted further => (noted.note c e ⟨further.known (grown.known opened.1), further.known known⟩
      (by rw [further.originOf e known, made, further.originOf c (grown.known opened.1),
        grown.originOf c opened.1, original]) fun hides => absurd hides apart)
  have content := classContent_made (grows hidden mid) (Matches hidden)
    (fun _ => True) (fun s _ => secure.symbols mid s) (fun m _ => secure.modifications mid m)
    (now.classOf c) (fun _ _ => trivial) fun x has =>
      secure.classes mid x (grown.opened (has.elim (own.nested x) (own.functions x)))
  refine .bind (content _ mid ⟨.refl mid, begun, noting memo mid (noted.later grown) (.refl mid)⟩)
    fun d memo next going after all => ?_
  replace all := all next (.refl next)
  have whole := grown.trans after
  have kept := (after.originOf e known).trans made
  have origins := originOf_modifyClass next e (fun _ => { d with origin := c }) kept.symm
  have stored := whole.modifyClass e fresh fun _ => { d with origin := c }
  have is : Matches hidden (next.modifyClass e fun _ => { d with origin := c }) (.class_ c) (.class_ e) := by
    refine ⟨⟨by simpa using after.known known, apart⟩, ?_⟩
    rw [origins, kept, whole.originOf c opened.1, original]
  refine .lift ((ensures_updateClass e _).2 (.modify _ (.pure ⟨stored, ?_, ?_⟩ stored fun _ =>
    is.later (stored.known opened.1))))
  · refine sound_store going.sound c e (after.known known) kept other (whole.opened opened) _ rfl
      ⟨fun p has => ?_, List.forall_mem_map.2 (forall_of_forall₂ (fun _ _ made => made.2) all.symbols)⟩
      (List.forall_mem_map.2 (forall_of_forall₂ (fun _ _ made => made.2.1) all.classes))
      (List.forall_mem_map.2 (forall_of_forall₂ (fun _ _ made => made.2.1) all.functions))
      (fun m has => ?_) ?_
    · have lower := around p (all.parent ▸ has)
      refine ⟨whole.known (own.holds.parent p (all.parent ▸ has)).1, ?_⟩
      rintro rfl
      exact lt_irrefl _ lower
    · have role := all.role
      rw [show d.role = _ from has] at role
      exact role.of_instance.choose_spec
    · rw [whole.classOf c opened.1]
      exact ⟨all.parent, all.component_eq, all.mapValues_eq _ fun _ _ made => made.2⟩
  · exact (noting memo next going.noted after).modifyClass e _ origins

theorem Secure.copyOrigin (c : ClassId) (opened : start.Open hidden c) (original : start.originOf c = c) :
    (grows hidden start).gives (copyOrigin (fuel + 1) c) fun i d => Matches hidden i (.class_ c) (.class_ d) := by
  intro memo now going
  obtain ⟨since, sound, noted⟩ := going
  replace original := (since.originOf c opened.1).trans original
  replace opened := since.opened opened
  replace noted : (memo.withParent (now.classOf c).parent).Sound hidden now := by
    cases has : (now.classOf c).parent with
    | none => exact noted
    | some p =>
      have there := ((sound.classes c opened.1).holds.parent p has).1
      exact noted.note p p ⟨there, there⟩ rfl id
  refine copyOrigin_takes (fun e found => ?_) fun _ => (secure.copyNew c _ now sound noted opened original).imp ?_
  · have is := noted.is opened found
    have unchanged : now.modifyClass e (fun d => { d with origin := c }) = now :=
      modifyClass_eq_self now e _ (by rw [← is.2.trans original]; rfl)
    refine .lift ((ensures_updateClass e _).2 ?_)
    rw [unchanged]
    exact .pure ⟨since, sound, noted⟩ (.refl now) fun _ => is.later opened.1
  · rintro _ next ⟨going, grown, is⟩
    exact ⟨⟨since.trans grown, going.sound, going.noted⟩, grown, is⟩

theorem Secure.copySymbol (s : SymbolId) : (grows hidden start).gives (copySymbol (fuel + 1) s) fun i t =>
      Matches hidden i (.symbol s) (.symbol t) := by
  intro memo now going
  obtain ⟨since, sound, noted⟩ := going
  rw [copySymbol_succ]
  refine .get ?_
  cases found : memo.symbols.lookup s with
  | some t =>
    exact .pure ⟨since, sound, noted⟩ (.refl now) fun _ grown =>
      (noted.symbols _ (mem_of_lookup _ _ _ found)).trans_le grown.moreSymbols
  | none =>
    refine .lift ((ensures_symbolOf s).2 (.lift ((ensures_addSymbol _).2 (.modify _ ?_))))
    have own := sound.symbol s
    have grown := (Grown.refl now).pushSymbol (now.symbolOf s)
    have known : now.nextSymbol.index < (now.pushSymbol (now.symbolOf s)).symbols.size := nextSymbol_lt ..
    have later := noted.later grown
    have content := symbolContent_made (grows hidden (now.pushSymbol (now.symbolOf s)))
      (Matches hidden) (fun _ => True) (fun s _ => secure.symbols _ s)
      (fun m _ => secure.modifications _ m) (now.symbolOf s) (fun _ _ => trivial) fun x has =>
        secure.classes _ x (grown.opened (has.elim (own.type x) (own.connector x)))
    refine .bind (content _ _ ⟨.refl _, sound.pushSymbol _ own, { later with
      symbols := List.forall_mem_cons.2 ⟨known, later.symbols⟩ }⟩) fun d memo next going after made => ?_
    replace made := made next (.refl next)
    have changed := (Grown.refl next).modifySymbol now.nextSymbol fun _ => d
    have whole := (grown.trans after).trans changed
    refine .lift ((ensures_updateSymbol _ _).2 (.pure ⟨since.trans whole, going.sound.modifySymbol _ _
      ⟨fun c has => ?_, fun c has => ?_, fun m has => ?_⟩, going.noted.later changed⟩ whole fun _ further =>
        known.trans_le ((after.trans changed).trans further).moreSymbols))
    · have type := made.type
      rw [has] at type
      exact type.of_instance.choose_spec.1
    · have connector := made.connectorType
      rw [has] at connector
      exact (exists_of_rel_some connector).choose_spec.1
    · have modification := made.modification
      rw [has] at modification
      exact (exists_of_rel_some modification).choose_spec

theorem Secure.copyModification (m : ModificationId) :
    (grows hidden start).gives (copyModification (fuel + 1) m) fun i n =>
      Matches hidden i (.modification m) (.modification n) := by
  intro memo now going
  obtain ⟨since, sound, noted⟩ := going
  unfold Copy.copyModification
  refine .get ?_
  split
  · next n found =>
    exact .pure ⟨since, sound, noted⟩ (.refl now) fun _ grown =>
      grown.free (noted.modifications _ (mem_of_lookup _ _ _ found))
  refine .lift ((ensures_addModification []).2 (.modify _ (.lift ((ensures_modificationOf m).2 ?_))))
  have grown := (Grown.refl now).pushModification []
  have free : (now.pushModification []).Free hidden now.nextModification :=
    ⟨nextModification_lt .., fun hides => lt_irrefl _ (sound.hiddenModifications _ hides)⟩
  have later := noted.later grown
  refine .bind (copyList_related (grows hidden start) _ (fun _ _ _ => True) _
    (fun a _ => secure.arguments start a) _ _ ⟨since.trans grown, sound.pushModification [], { later with
      modifications := List.forall_mem_cons.2 ⟨free, later.modifications⟩ }⟩)
    fun as memo next going after _ => ?_
  have changed := (Grown.refl next).modifyModification now.nextModification fun _ => as
  exact .lift ((ensures_updateModification _ _).2 (.pure ⟨going.since.trans changed,
    going.sound.modifyModification _ _, going.noted.later changed⟩ ((grown.trans after).trans changed)
    fun _ further => ((after.trans changed).trans further).free free))

theorem Secure.copyArgument (a : ArgumentId) :
    (grows hidden start).gives (copyArgument (fuel + 1) a) anyhow := by
  intro memo now going
  unfold Copy.copyArgument
  refine .get ?_
  split
  · exact .pure going (.refl now) fun _ _ => trivial
  refine .lift ((ensures_argumentOf a).2 (.lift ((ensures_argumentOf _).2 (.get ?_))))
  extract_lets rest
  -- arguments do not count for the soundness of a library or of the notes
  have changed : ∀ b f memo next, Going hidden start memo next → Going hidden start memo (next.modifyArgument b f) :=
    fun b f memo next going => have grown := (Grown.refl next).modifyArgument b f
      ⟨going.since.trans grown, going.sound.modifyArgument b f, going.noted.later grown⟩
  have finish : ∀ b memo next, Going hidden start memo next → now.Grown next →
      Takes growing (Going hidden start) now (rest b) memo next anyhow := by
    intro b memo next going grown
    have after := fun f => changed b f memo next going
    exact .lift ((ensures_updateArgument b _).2 (.modify _ (.pure ⟨(after _).since, (after _).sound,
      { (after _).noted with }⟩ (grown.modifyArgument b _) fun _ _ => trivial)))
  split
  · rw [pure_bind]
    exact finish _ memo now going (.refl now)
  refine .lift ((ensures_addArgument _ _ _).2 (.modify _ ?_))
  have grown := (Grown.refl now).pushArgument
  refine .bind (secure.values start _ _ _ ⟨going.since.trans (grown _), going.sound.pushArgument _,
    { going.noted.later (grown _) with }⟩) fun value memo next going after _ => ?_
  refine .lift ((ensures_updateArgument _ _).2 ?_)
  rw [pure_bind]
  exact finish _ memo _ (changed _ _ memo next going) (((grown _).trans after).modifyArgument _ _)

theorem Secure.copyArgumentValue (v : ArgumentValue) :
    (grows hidden start).gives (copyArgumentValue (fuel + 1) v) anyhow :=
  Staging.mono _ (copyArgumentValue_alike _ (Matches hidden) (fun _ => True)
    (fun s _ => secure.symbols start s) (fun m _ => secure.modifications start m) v
    fun _ _ => trivial) fun _ _ _ => trivial

end Step

theorem secure (hidden : Hidden) (fuel : Nat) : Secure hidden fuel := by
  induction fuel with
  | zero =>
    constructor <;> intros <;> simp only [copyClass, copyOrigin, copySymbol, copyModification, copyArgument,
      copyArgumentValue] <;> exact fun _ _ _ => .throw trivial
  | succ fuel ih =>
    exact ⟨ih.copyClass, ih.copyOrigin, ih.copySymbol, ih.copyModification, ih.copyArgument, ih.copyArgumentValue⟩

end Copy

namespace Build

theorem copyClass_sound {hidden : Hidden} (lib : Library) (sound : lib.Sound hidden) (c : ClassId)
    (opened : lib.Open hidden c) : (copyClass c).Ensures lib (fun e next => next.Sound hidden ∧
      lib.Grown next ∧ next.Open hidden e ∧ next.originOf e = lib.originOf c) anyhow := by
  unfold copyClass
  rw [bind_get, ensures_bind]
  refine ((Copy.secure hidden _).classes lib c opened {} lib ⟨.refl lib, sound, .empty hidden lib⟩).imp ?_
  rintro ⟨e, memo⟩ next ⟨going, grown, made⟩
  obtain ⟨there, same⟩ := made next (.refl next)
  exact (ensures_pure e).2 ⟨going.sound, grown, there, same.trans (grown.originOf c opened.1)⟩

end Build

end Modelica
