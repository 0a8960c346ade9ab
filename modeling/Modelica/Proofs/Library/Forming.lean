import Modelica.Proofs.Library.Kept
import Modelica.Proofs.Library.Scopes

set_option autoImplicit false

namespace Modelica

namespace Library

structure Recalls (lib next : Library) : Prop where
  moreArguments : lib.arguments.size ≤ next.arguments.size
  follows : ∀ a, a.index < lib.arguments.size → (lib.argumentOf a).Follows (next.argumentOf a)

namespace Recalls

variable {lib now next : Library}

theorem refl (lib : Library) : lib.Recalls lib := ⟨le_rfl, fun _ _ => .refl _⟩

theorem trans (first : lib.Recalls now) (second : now.Recalls next) : lib.Recalls next where
  moreArguments := first.moreArguments.trans second.moreArguments
  follows a known := (first.follows a known).trans (second.follows a (known.trans_le first.moreArguments))

theorem pushArgument (recalls : lib.Recalls now) (d : Argument) : lib.Recalls (now.pushArgument d) where
  moreArguments := by
    rw [arguments_size_pushArgument]
    exact Nat.le_succ_of_le recalls.moreArguments
  follows b known := by
    have less := known.trans_le recalls.moreArguments
    rw [argumentOf_pushArgument_ne now b d less.ne]
    exact recalls.follows b known

theorem modifyArgument (recalls : lib.Recalls now) (a : ArgumentId) (f : Argument → Argument)
    (follows : (now.argumentOf a).Follows (f (now.argumentOf a))) :
    lib.Recalls (now.modifyArgument a f) where
  moreArguments := by simpa using recalls.moreArguments
  follows b known := by
    have before := recalls.follows b known
    refine getD_modify_of now.arguments _ _ _ _ (motive := Argument.Follows _) before fun same _ => ?_
    cases a
    cases same
    exact before.trans follows

end Recalls

structure Onward (hidden : Hidden) (lib next : Library) : Prop
    extends lib.Grown next, lib.Recalls next where
  waiting : ∀ m, hidden.modifications m → next.modificationOf m = lib.modificationOf m

namespace Onward

variable {hidden : Hidden} {lib now next : Library}

theorem refl (hidden : Hidden) (lib : Library) : lib.Onward hidden lib := ⟨.refl lib, .refl lib, fun _ _ => rfl⟩

theorem trans (first : lib.Onward hidden now) (second : now.Onward hidden next) : lib.Onward hidden next :=
  ⟨first.toGrown.trans second.toGrown, first.toRecalls.trans second.toRecalls,
    fun m hides => (second.waiting m hides).trans (first.waiting m hides)⟩

theorem weaken {more : Hidden} (onward : lib.Onward more next)
    (within : ∀ m, hidden.modifications m → more.modifications m) : lib.Onward hidden next :=
  { onward with waiting := fun m hides => onward.waiting m (within m hides) }

theorem of_extended (ext : lib.Extended next) (grown : lib.Grown next)
    (known : ∀ m, hidden.modifications m → m.In lib) :
    lib.Onward hidden next where
  toGrown := grown
  moreArguments := ext.moreArguments
  waiting m hides := ext.modificationOf m (known m hides)
  follows a known := by
    rw [ext.argumentOf a known]
    exact .refl _

section Steps

variable (onward : lib.Onward hidden now)

include onward

theorem pushClass (d : ClassDef) : lib.Onward hidden (now.pushClass d) :=
  { onward with toGrown := onward.toGrown.pushClass d }

theorem modifyClass (c : ClassId) (new : c.New lib) (f : ClassDef → ClassDef) :
    lib.Onward hidden (now.modifyClass c f) :=
  { onward with toGrown := onward.toGrown.modifyClass c new f }

theorem pushSymbol (d : Symbol) : lib.Onward hidden (now.pushSymbol d) :=
  { onward with toGrown := onward.toGrown.pushSymbol d }

theorem modifySymbol (s : SymbolId) (f : Symbol → Symbol) : lib.Onward hidden (now.modifySymbol s f) :=
  { onward with toGrown := onward.toGrown.modifySymbol s f }

theorem pushModification (known : ∀ m, hidden.modifications m → m.In lib)
    (as : List ArgumentId) : lib.Onward hidden (now.pushModification as) :=
  { onward with
    toGrown := onward.toGrown.pushModification as
    waiting := fun m hides => by
      have less := (known m hides).trans_le onward.moreModifications
      rw [modificationOf_pushModification_ne now m as less.ne]
      exact onward.waiting m hides }

theorem modifyModification (m : ModificationId) (apart : ¬ hidden.modifications m)
    (f : List ArgumentId → List ArgumentId) : lib.Onward hidden (now.modifyModification m f) :=
  { onward with
    toGrown := onward.toGrown.modifyModification m f
    waiting := fun n hides => by
      have other : m ≠ n := by
        rintro rfl
        exact apart hides
      rw [modificationOf_modifyModification_ne now m n f other]
      exact onward.waiting n hides }

theorem pushArgument (d : Argument) : lib.Onward hidden (now.pushArgument d) :=
  ⟨onward.toGrown.pushArgument d, onward.toRecalls.pushArgument d, onward.waiting⟩

end Steps

end Onward

def Hidden.insert (hidden : Hidden) (k : ClassId) (own : Prop) (w : ModificationId) : Hidden where
  classes c := hidden.classes c ∨ c = k
  modifications m := hidden.modifications m ∨ own ∧ m = w

variable {hidden : Hidden} {lib : Library}

theorem Sound.weaken {more : Hidden} (sound : lib.Sound more) (classes : ∀ c, hidden.classes c → more.classes c)
    (modifications : ∀ m, hidden.modifications m → more.modifications m)
    (environments : ∀ c m, more.classes c → (lib.classOf c).role = .instance_ m →
      hidden.modifications m → hidden.classes c) : lib.Sound hidden := by
  have opens : ∀ c, lib.Open more c → lib.Open hidden c := fun c has => ⟨has.1, fun hides => has.2 (classes c hides)⟩
  have frees : ∀ m, lib.Free more m → lib.Free hidden m := fun m has =>
    ⟨has.1, fun hides => has.2 (modifications m hides)⟩
  refine ⟨fun c hides => sound.hiddenClasses c (classes c hides),
    fun m hides => sound.hiddenModifications m (modifications m hides), fun c known => ?_,
    fun s known => ?_⟩
  · have own := sound.classes c known
    refine ⟨own.holds, fun e member => opens e (own.nested e member),
      fun e member => opens e (own.functions e member), own.environment, fun m has hides =>
        environments c m (own.secret m has (modifications m hides)) has hides, own.origin,
      own.original, fun hides => own.uncopied (classes _ hides), own.twins⟩
  · have own := sound.symbols s known
    exact ⟨fun c has => opens c (own.type c has), fun c has => opens c (own.connector c has),
      fun m has => frees m (own.modification m has)⟩

theorem Sound.hide {k : ClassId} {v w : ModificationId} (sound : lib.Sound (hidden.insert k False v)) (own : Prop)
    (known : own → w.index < lib.modifications.size)
    (symbols : own → ∀ s, s.index < lib.symbols.size → (lib.symbolOf s).modification ≠ some w)
    (environments : own → ∀ c, c.index < lib.classes.size → c ≠ k →
      (lib.classOf c).role ≠ .instance_ w) : lib.Sound (hidden.insert k own w) := by
  have plain : ∀ m, (hidden.insert k False v).modifications m → hidden.modifications m := by
    rintro m (hides | ⟨never, _⟩)
    · exact hides
    · exact never.elim
  have frees : ∀ m, lib.Free (hidden.insert k False v) m → ¬ (own ∧ m = w) → lib.Free (hidden.insert k own w) m := by
    rintro m free other
    exact ⟨free.1, fun hides => hides.elim (fun hides => free.2 (.inl hides)) other⟩
  refine ⟨sound.hiddenClasses, ?_, fun c there => ?_, fun s there => ?_⟩
  · rintro m (hides | ⟨yes, rfl⟩)
    · exact sound.hiddenModifications m (.inl hides)
    · exact known yes
  · have before := sound.classes c there
    refine { before with secret := ?_ }
    rintro m has (hides | ⟨yes, rfl⟩)
    · exact before.secret m has (.inl hides)
    · by_cases itself : c = k
      · exact .inr itself
      · exact absurd has (environments yes c there itself)
  · have before := sound.symbols s there
    refine ⟨before.type, before.connector, fun m has => frees m (before.modification m has) ?_⟩
    rintro ⟨yes, rfl⟩
    exact symbols yes s there has

theorem Sound.pushHidden (sound : lib.Sound hidden) (d : ClassDef) (w : ModificationId)
    (parent : ∀ p, d.parent = some p → p.In lib) (classes : d.classes = .empty)
    (symbols : d.symbols = .empty) (functions : d.functions = .empty)
    (environment : ∀ m, d.role = .instance_ m → m.In lib) (origin : d.origin = lib.nextClass) :
    (lib.pushClass d).Sound (hidden.insert lib.nextClass False w) := by
  have grown := (Grown.refl lib).pushClass d
  have last : lib.nextClass.index < (lib.pushClass d).classes.size := nextClass_lt ..
  have here : (lib.pushClass d).classOf lib.nextClass = d := classOf_pushClass_self lib d
  have opens : ∀ c, lib.Open hidden c → (lib.pushClass d).Open (hidden.insert lib.nextClass False w) c := by
    rintro c ⟨known, apart⟩
    refine ⟨grown.known known, ?_⟩
    rintro (hides | rfl)
    · exact apart hides
    · exact lt_irrefl _ known
  have frees : ∀ m, lib.Free hidden m → (lib.pushClass d).Free (hidden.insert lib.nextClass False w) m :=
    fun m ⟨known, apart⟩ => ⟨known, fun hides => hides.elim apart fun never => never.1⟩
  refine ⟨?_, ?_, fun c known => ?_, fun s known => ?_⟩
  · rintro c (hides | rfl)
    · exact grown.known (sound.hiddenClasses c hides)
    · exact last
  · rintro m (hides | ⟨never, _⟩)
    · exact sound.hiddenModifications m hides
    · exact never.elim
  · by_cases itself : c = lib.nextClass
    · subst itself
      rw [here]
      refine ⟨⟨fun p has => ⟨grown.known (parent p has), ?_⟩, ?_⟩, ?_, ?_, environment,
        fun _ _ _ => .inr rfl, ?_, ?_, fun _ => origin, ?_⟩
      · rintro rfl
        exact lt_irrefl _ (parent _ has)
      · rw [symbols]
        nofun
      · rw [classes]
        nofun
      · rw [functions]
        nofun
      · rw [origin]
        exact last
      · rw [origin]
        exact (congrArg ClassDef.origin here).trans origin
      · rw [origin, here]
        exact .refl _ d
    · have there : c.In lib := by
        rw [classes_size_pushClass] at known
        refine Nat.lt_of_le_of_ne (Nat.le_of_lt_succ known) fun same => itself ?_
        cases c
        cases same
        rfl
      have own := sound.classes c there
      have own' := grown.soundClass sound own
      rw [grown.classOf c there]
      refine ⟨own'.holds, fun e member => opens e (own.nested e member),
        fun e member => opens e (own.functions e member), own'.environment, ?_, own'.origin,
        own'.original, ?_, own'.twins⟩
      · rintro m has (hides | ⟨never, _⟩)
        · exact .inl (own.secret m has hides)
        · exact never.elim
      rintro (hides | same)
      · exact own.uncopied hides
      · exact absurd own.origin (by rw [same]; exact lt_irrefl _)
  · have own := sound.symbols s known
    exact ⟨fun c has => opens c (own.type c has), fun c has => opens c (own.connector c has),
      fun m has => frees m (own.modification m has)⟩

end Library

namespace Build

open Library

section Lookup

variable {hidden : Hidden} (lib : Library) (sound : lib.Sound hidden)

include sound

theorem copyClass_onward (c : ClassId) (opened : lib.Open hidden c) :
    (copyClass c).Ensures lib (fun e next => next.Sound hidden ∧ lib.Onward hidden next ∧
      next.Open hidden e ∧ next.originOf e = lib.originOf c) anyhow := by
  refine ((copyClass_sound lib sound c opened).and (copyClass_extends lib c)).mono ?_ fun _ _ _ => trivial
  rintro e next ⟨⟨sound', grown, opened, same⟩, ext⟩
  exact ⟨sound', .of_extended ext grown sound.hiddenModifications, opened, same⟩

section

variable (c : ClassId) (r : ComponentRef)

theorem findClass_copy :
    (do copyClass (← findClass c r)).Ensures lib (fun e next => next.Sound hidden ∧
      lib.Onward hidden next ∧ next.Open hidden e ∧
        (lib.findClass? c r.names).map lib.originOf = some (next.originOf e)) anyhow := by
  rw [ensures_bind]
  unfold findClass
  rw [bind_get]
  split
  · next d found =>
    rw [ensures_pure]
    refine (copyClass_onward lib sound d (open_findClass? sound _ c d (names_ne_nil r) found)).imp ?_
    rintro e next ⟨sound, onward, opened, same⟩
    exact ⟨sound, onward, opened, by rw [found, same]; rfl⟩
  · exact .throw

theorem instantiable_sound :
    (instantiable c r).Ensures lib (fun e next => next.Sound hidden ∧ lib.Onward hidden next ∧
      next.Open hidden e ∧ elementaryNames.contains r.name = false ∧
        (lib.findClass? c r.names).map lib.originOf = some (next.originOf e)) anyhow := by
  unfold instantiable
  split
  · rw [ensures_bind, ensures_throw]
    trivial
  · next other =>
    refine (findClass_copy lib sound c r).imp ?_
    rintro e next ⟨sound, onward, opened, same⟩
    exact ⟨sound, onward, opened, Bool.eq_false_iff.2 other, same⟩

theorem baseClass_sound (known : c.In lib) :
    (baseClass c r).Ensures lib (fun e next => next.Sound hidden ∧ lib.Onward hidden next ∧
      next.Open hidden e ∧ (elementaryNames.contains r.name = false →
        (lib.findClass? c r.names).map lib.originOf = some (next.originOf e)) ∧
      ∀ fuel, next.visible fuel e = lib.brought (lib.visible fuel) c r)
      anyhow := by
  unfold baseClass
  split
  · next elementary =>
    unfold builtinClass
    rw [ensures_bind, ensures_addSymbol, bind_get, ensures_addClass]
    have sound := sound.pushSymbol
      { name := "__value", type := .named (.simple (elementaryType r.name)) } ⟨nofun, nofun, nofun⟩
    have onward := (Onward.refl hidden lib).pushSymbol
      { name := "__value", type := .named (.simple (elementaryType r.name)) }
    have root := rootOf_induct sound.closed.parent_known c known
    have there : lib.nextSymbol.index < (lib.pushSymbol
        { name := "__value", type := .named (.simple (elementaryType r.name)) }).symbols.size :=
      nextSymbol_lt ..
    generalize lib.pushSymbol _ = now at *
    generalize made : ({ name := some (elementaryType r.name), type := "__builtin"
                         parent := some (now.rootOf c)
                         symbols := OrderedMap.empty.insert "__value" lib.nextSymbol
                         origin := now.nextClass } : ClassDef) = d
    have here : (now.pushClass d).classOf now.nextClass = d := classOf_pushClass_self now d
    have last : now.nextClass.index < (now.pushClass d).classes.size := nextClass_lt ..
    have fresh : ¬ hidden.classes now.nextClass := fun hides => lt_irrefl _ (sound.hiddenClasses _ hides)
    have grown := (Grown.refl now).pushClass d
    refine ⟨sound.pushClass d ?_, onward.pushClass d, ⟨last, fresh⟩, fun other => ?_, fun fuel => ?_⟩
    · subst made
      refine ⟨⟨fun p has => ?_, fun s member => ?_⟩, nofun, nofun, nofun, nofun, last, ?_, fun _ => rfl, ?_⟩
      · obtain rfl : now.rootOf c = p := Option.some.inj has
        refine ⟨grown.known root, fun itself => ?_⟩
        rw [itself] at root
        exact lt_irrefl _ root
      · obtain rfl : s = lib.nextSymbol := List.mem_singleton.1 member
        exact there
      · exact congrArg ClassDef.origin here
      · show Twins _ _ (Library.classOf _ now.nextClass)
        rw [here]
        exact .refl _ _
    · rw [elementary] at other
      contradiction
    · rw [brought, if_pos elementary]
      cases fuel with
      | zero => rfl
      | succ fuel =>
        unfold visible
        rw [here, ← made]
        rfl
  · next other =>
    refine (findClass_copy lib sound c r).imp ?_
    rintro e next ⟨sound', onward, opened, same⟩
    refine ⟨sound', onward, opened, fun _ => same, fun fuel => ?_⟩
    obtain ⟨d, found, origins⟩ := Option.map_eq_some_iff.1 same
    have there := (open_findClass? sound _ c d (names_ne_nil r) found).1
    rw [brought, if_neg other, found]
    show _ = lib.visible fuel d
    rw [← visible_grown sound onward.toGrown fuel d there]
    refine visible_twins sound' opened.1 (onward.known there) ?_ fuel
    rw [onward.originOf d there, origins]

end

end Lookup

structure Forming (hidden : Hidden) (lib : Library) (k : ClassId) (own : Prop) (w : ModificationId)
    (parent : Option ClassId) (table : OrderedMap (Option String) ClassId) (now : Library) :
    Prop where
  sound : now.Sound (hidden.insert k own w)
  onward : lib.Onward hidden now
  new : lib.classes.size ≤ k.index
  around : (now.classOf k).parent = parent
  role : (now.classOf k).role = .instance_ w
  origin : now.originOf k = k
  apart : ¬ hidden.modifications w
  later : own → lib.modifications.size ≤ w.index
  waits : w.index < now.modifications.size
  notes : ∀ n, (now.classOf k).annotated = some n → now.Free (hidden.insert k own w) n
  unique : (now.classOf k).symbols.keys.Nodup
  classes : (now.classOf k).classes.mapValues now.originOf = table

namespace Forming

variable {hidden : Hidden} {lib now next : Library} {k : ClassId} {own : Prop} {w : ModificationId}
  {parent : Option ClassId} {table : OrderedMap (Option String) ClassId}

theorem known (forming : Forming hidden lib k own w parent table now) :
    k.In now := forming.sound.hiddenClasses k (.inr rfl)

theorem start (sound : now.Sound hidden) (onward : lib.Onward hidden now) (d : ClassDef)
    (n : ModificationId) (around : ∀ p, parent = some p → p.In lib)
    (inside : d.parent = parent) (classes : d.classes = .empty) (symbols : d.symbols = .empty)
    (functions : d.functions = .empty) (role : d.role = .instance_ w) (origin : d.origin = now.nextClass)
    (notes : d.annotated = some n) (noted : now.Free hidden n) (waits : now.Free hidden w)
    (later : own → lib.modifications.size ≤ w.index ∧ n ≠ w)
    (unused : own → (∀ s, s.In now → (now.symbolOf s).modification ≠ some w) ∧
      ∀ c, c.In now → (now.classOf c).role ≠ .instance_ w) :
    Forming hidden lib now.nextClass own w parent .empty (now.pushClass d) := by
  subst inside
  have here := classOf_pushClass_self now d
  have environment : ∀ m, d.role = .instance_ m → m.In now := by
    intro m has
    rw [role] at has
    cases has
    exact waits.1
  have begun := sound.pushHidden d w (fun p has => onward.known (around p has)) classes symbols
    functions environment origin
  refine ⟨begun.hide own (fun _ => waits.1) (fun yes => (unused yes).1) ?_, onward.pushClass d,
    onward.moreClasses, ?_, ?_, ?_, waits.2, fun yes => (later yes).1, waits.1, ?_, ?_, ?_⟩
  · intro yes c there other has
    have before : c.In now := by
      rw [classes_size_pushClass] at there
      refine Nat.lt_of_le_of_ne (Nat.le_of_lt_succ there) fun same => other ?_
      cases c
      cases same
      rfl
    rw [classOf_pushClass_ne now c d before.ne] at has
    exact (unused yes).2 c before has
  · rw [here]
  · rw [here, role]
  · exact (congrArg ClassDef.origin here).trans origin
  · rw [here, notes]
    rintro _ ⟨⟩
    refine ⟨noted.1, ?_⟩
    rintro (hides | ⟨yes, same⟩)
    · exact noted.2 hides
    · exact (later yes).2 same
  · rw [here, symbols]
    exact List.nodup_nil
  · rw [here, classes]
    rfl

section

variable (forming : Forming hidden lib k own w parent table now)
include forming

theorem after (sound : next.Sound (hidden.insert k own w)) (onward : now.Onward (hidden.insert k own w) next) :
    Forming hidden lib k own w parent table next := by
  have same := onward.classOf k forming.known
  refine ⟨sound, forming.onward.trans (onward.weaken fun _ => .inl), forming.new, ?_, ?_, ?_,
    forming.apart, forming.later, forming.waits.trans_le onward.moreModifications, ?_, ?_, ?_⟩
  · rw [same]
    exact forming.around
  · rw [same]
    exact forming.role
  · rw [onward.originOf k forming.known]
    exact forming.origin
  · rw [same]
    exact fun n has => onward.free (forming.notes n has)
  · rw [same]
    exact forming.unique
  · rw [same, onward.mapValues _ fun e member => (forming.sound.nested member).1]
    exact forming.classes

section

variable (f : ClassDef → ClassDef) (around : (f (now.classOf k)).parent = (now.classOf k).parent)
include f around

theorem sound_modifyClass (origin : (f (now.classOf k)).origin = (now.classOf k).origin)
    (environment : ∀ m, (f (now.classOf k)).role = .instance_ m → m.In now)
    (symbols : ∀ s ∈ (f (now.classOf k)).symbols.values, s.In now)
    (nested : ∀ e ∈ (f (now.classOf k)).classes.values, now.Open (hidden.insert k own w) e)
    (functions : ∀ e ∈ (f (now.classOf k)).functions.values, now.Open (hidden.insert k own w) e) :
    (now.modifyClass k f).Sound (hidden.insert k own w) := by
  have here := classOf_modifyClass_self now k f forming.known
  have sizes := classes_size_modifyClass now k f
  have opens : ∀ e, now.Open (hidden.insert k own w) e →
      (now.modifyClass k f).Open (hidden.insert k own w) e := fun e has => ⟨sizes ▸ has.1, has.2⟩
  have itself : (f (now.classOf k)).origin = k := origin.trans forming.origin
  refine forming.sound.modifyClass k f origin (fun d there copied => ?_) ?_
  · exact ((forming.sound.classes d there).uncopied (.inr copied)).symm.trans copied
  · refine ⟨⟨fun p has => ?_, symbols⟩, fun e member => opens e (nested e member),
      fun e member => opens e (functions e member), environment, fun _ _ _ => .inr rfl, ?_, ?_,
      fun _ => itself, ?_⟩
    · rw [sizes]
      exact (forming.sound.closed k).parent p (around ▸ has)
    · rw [itself, sizes]
      exact forming.known
    · rw [itself, originOf_modifyClass now k f origin]
      exact forming.origin
    · rw [itself, here]
      exact .refl _ _

theorem modifyClass (role : (f (now.classOf k)).role = (now.classOf k).role)
    (origin : (f (now.classOf k)).origin = (now.classOf k).origin)
    (notes : (f (now.classOf k)).annotated = (now.classOf k).annotated)
    (unique : (f (now.classOf k)).symbols.keys.Nodup)
    (symbols : ∀ s ∈ (f (now.classOf k)).symbols.values, s.In now)
    (nested : ∀ e ∈ (f (now.classOf k)).classes.values, now.Open (hidden.insert k own w) e)
    (functions : ∀ e ∈ (f (now.classOf k)).functions.values, now.Open (hidden.insert k own w) e) :
    Forming hidden lib k own w parent ((f (now.classOf k)).classes.mapValues now.originOf) (now.modifyClass k f) := by
  have here := classOf_modifyClass_self now k f forming.known
  have origins := originOf_modifyClass now k f origin
  have mine := forming.sound.classes k forming.known
  refine ⟨forming.sound_modifyClass f around origin (fun m has => mine.environment m (role ▸ has))
    symbols nested functions, forming.onward.modifyClass k forming.new f,
    forming.new, ?_, ?_, ?_, forming.apart, forming.later, forming.waits, ?_, ?_, ?_⟩
  · rw [here, around]
    exact forming.around
  · rw [here, role]
    exact forming.role
  · rw [origins]
    exact forming.origin
  · rw [here, notes]
    exact forming.notes
  · rw [here]
    exact unique
  · rw [here, origins]

end

theorem modifyModification (m : ModificationId) (apart : ¬ hidden.modifications m)
    (f : List ArgumentId → List ArgumentId) :
    Forming hidden lib k own w parent table (now.modifyModification m f) where
  __ := forming
  sound := forming.sound.modifyModification m f
  onward := forming.onward.modifyModification m apart f
  waits := by simpa using forming.waits
  notes n has := ((Grown.refl now).modifyModification m f).free (forming.notes n has)

theorem modifySymbol (s : SymbolId) (f : Symbol → Symbol)
    (sound : now.SoundSymbol (hidden.insert k own w) (f (now.symbolOf s))) :
    Forming hidden lib k own w parent table (now.modifySymbol s f) where
  __ := forming
  sound := forming.sound.modifySymbol s f sound
  onward := forming.onward.modifySymbol s f

theorem takeOver (other : ClassId) (there : other.In now) :
    (takeOver k other).Ensures now (fun _ next => Forming hidden lib k own w parent
      (table.union ((now.classOf other).classes.mapValues now.originOf)) next ∧
      (∀ c, c ≠ k → next.classOf c = now.classOf c) ∧
      ∀ m, (∀ n, (now.classOf k).annotated = some n → n ≠ m) →
        next.modificationOf m = now.modificationOf m) anyhow := by
  unfold Build.takeOver
  rw [bind_classOf, bind_updateClass, bind_classOf]
  have its := forming.sound.classes other there
  have mine := forming.sound.classes k forming.known
  have values : ∀ {κ α : Type} [DecidableEq κ] (m n : OrderedMap κ α) (a : α),
      a ∈ (m.union n).values → a ∈ m.values ∨ a ∈ n.values := by
    intro κ α _ m n a member
    obtain ⟨entry, listed, rfl⟩ := List.mem_map.1 member
    exact (OrderedMap.mem_entries_union m n entry listed).imp (List.mem_map_of_mem ·) (List.mem_map_of_mem ·)
  have merged : Forming hidden lib k own w parent (table.union ((now.classOf other).classes.mapValues now.originOf))
      (now.modifyClass k fun d => d.merge (now.classOf other)) := by
    rw [← forming.classes, ← OrderedMap.mapValues_union]
    refine forming.modifyClass (fun d => d.merge (now.classOf other)) rfl rfl rfl rfl
      (OrderedMap.nodup_union _ _ forming.unique) ?_ ?_ ?_
    · intro s member
      exact (values _ _ s member).elim (mine.holds.symbols s) (its.holds.symbols s)
    · intro e member
      exact (values _ _ e member).elim (mine.nested e) (its.nested e)
    · intro e member
      exact (values _ _ e member).elim (mine.functions e) (its.functions e)
  have others : ∀ c, c ≠ k → (now.modifyClass k fun d => d.merge (now.classOf other)).classOf c = now.classOf c :=
    fun c apart => classOf_modifyClass_ne now k c _ apart.symm
  split
  · next n _ has _ =>
    rw [ensures_bind, ensures_argumentsOf]
    refine (ensures_updateModification n _).2 ⟨merged.modifyModification n
      (fun hides => (merged.notes n has).2 (.inl hides)) _, others, fun m apart => ?_⟩
    refine modificationOf_modifyModification_ne _ n m _ (apart n ?_)
    rw [← has, classOf_modifyClass_self now k _ forming.known]
    rfl
  · exact .pure ⟨merged, others, fun _ _ => rfl⟩

theorem quietSymbol (s : SymbolId)
    (f : Symbol → Symbol) (same : ∀ d, (f d).type = d.type ∧ (f d).modification = d.modification ∧
      (f d).connectorType = d.connectorType) :
    Forming hidden lib k own w parent table (now.modifySymbol s f) := by
  have before := forming.sound.symbol s
  obtain ⟨type, modification, connector⟩ := same (now.symbolOf s)
  exact forming.modifySymbol s f ⟨fun c has => before.type c (type ▸ has),
    fun c has => before.connector c (connector ▸ has),
    fun m has => before.modification m (modification ▸ has)⟩

theorem limitVisibility (c : ClassId) (v : Visibility) : (limitVisibility c v).Ensures now (fun _ next =>
      Forming hidden lib k own w parent table next ∧ next.modifications = now.modifications)
      anyhow := by
  unfold Build.limitVisibility
  rw [bind_classOf]
  refine (ensures_forEach _ _ (fun next => Forming hidden lib k own w parent table next ∧
    next.modifications = now.modifications) ⟨forming, rfl⟩ ?_).bind
    fun _ _ holds => .pure holds
  rintro s _ next ⟨forming, same⟩
  refine (ensures_updateSymbol s _).2 ⟨forming.quietSymbol s _ fun d => ?_, same⟩
  split <;> exact ⟨rfl, rfl, rfl⟩

theorem waiting_eq : now.waiting k = (now.modificationOf w).arguments := by
  unfold waiting
  rw [forming.role]

theorem notes_ne (mine : own) (n : ModificationId) (has : (now.classOf k).annotated = some n) : n ≠ w := fun same =>
  (forming.notes n has).2 (.inr ⟨mine, same⟩)

end

end Forming

-- What may hold of a class, the modifications from outside, the class around and a library, and of the instance
-- and the library that come of them.
abbrev Yield := ClassId → Option ModificationId → Option ClassId → Library → ClassId → Library → Prop

-- A base class of `given` brings the arguments that wait in its instance. The class is what the name stands
-- for, and its instance was built with the modifications at the clause.
def Brings (gathers : Yield) (merge : Builder) (lib : Library) (given k : ClassId) (was : Library)
    (clause : ExtendsClause) (list : List ArgumentId) : Prop :=
  ∃ base next merged after, Base merge given k clause was base next merged after ∧
    (elementaryNames.contains clause.component.name = false →
      (lib.findClass? given clause.component.names).map lib.originOf = some (next.originOf base)) ∧
    gathers base (some clause.modification) (next.classOf base).parent next merged after ∧
    ((∀ e, (next.classOf base).role ≠ .instance_ e) → list = after.waiting merged)

-- Each clause brings its list in the state that the clauses before it have led to.
def BringsAll (gathers : Yield) (merge : Builder) (lib : Library) (given k : ClassId)
    (step : ExtendsClause → Build Unit) (begun : Library) (clauses : List ExtendsClause)
    (lists : List (List ArgumentId)) : Prop :=
  lists.length = clauses.length ∧ ∀ done clause, done ++ [clause] <+: clauses → ∃ was list,
    forM done step begun = .ok ⟨⟩ was ∧ lists[done.length]? = some list ∧
    Brings gathers merge lib given k was clause list

-- Those arguments wait that the base classes bring, in the order of the clauses, and behind them those from
-- outside.
def Gathered (gathers : Yield) (merge : Builder) (lib : Library) (given : ClassId)
    (environment : Option ModificationId) (parent : Option ClassId) (k : ClassId) (w : ModificationId)
    (now : Library) : Prop :=
  ∃ begun lists outer, beginInstance given parent lib = .ok (k, w) begun ∧
    (now.modificationOf w).arguments = lists.flatten ++ outer ∧
    BringsAll gathers merge lib given k (clauseStep merge lib given k w) begun (lib.classOf given).extends_ lists ∧
    (environment = none → outer = []) ∧
    ∀ m, environment = some m → w ≠ m → outer = (now.modificationOf m).arguments

def Gathers : Nat → Yield
  | 0, _, _, _, _, _, _ => False
  | fuel + 1, given, environment, parent, lib, k, merged =>
    mergeBases (fuel + 1) given environment parent lib = .ok k merged ∧
    ((∀ e, (lib.classOf given).role ≠ .instance_ e) → (merged.classOf k).type ≠ "__builtin" →
      ∃ w, (merged.classOf k).role = .instance_ w ∧
        Gathered (Gathers fuel) (mergeBases fuel) lib given environment parent k w merged)

theorem BringsAll.snoc {gathers : Yield} {merge : Builder} {lib begun now : Library} {given k : ClassId}
    {step : ExtendsClause → Build Unit} {clauses : List ExtendsClause} {clause : ExtendsClause}
    {lists : List (List ArgumentId)} {list : List ArgumentId}
    (before : BringsAll gathers merge lib given k step begun clauses lists)
    (reached : forM clauses step begun = .ok ⟨⟩ now) (brings : Brings gathers merge lib given k now clause list) :
    BringsAll gathers merge lib given k step begun (clauses ++ [clause]) (lists ++ [list]) := by
  refine ⟨by simp [before.1], fun done last within => ?_⟩
  obtain all | old := List.prefix_concat_iff.1 within
  · obtain ⟨rfl, rfl⟩ := List.append_inj' all rfl |>.imp_right List.singleton_inj.1
    exact ⟨now, list, reached, by simp [← before.1], brings⟩
  · obtain ⟨was, l, ran, listed, here⟩ := before.2 done last old
    exact ⟨was, l, ran, by rw [List.getElem?_append_left (List.getElem?_eq_some_iff.1 listed).1, listed], here⟩

def Shapes (fuel : Nat) (merge : Builder) : Prop :=
  ∀ (hidden : Hidden) given environment parent lib, lib.Sound hidden → lib.Open hidden given →
    (∀ p, parent = some p → p.index < lib.classes.size) →
    (merge given environment parent).Ensures lib (fun k next => (∃ w, Forming hidden lib k
      (∀ e, (lib.classOf given).role ≠ .instance_ e) w parent (lib.visible fuel given) next) ∧
        Gathers fuel given environment parent lib k next) fun _ _ => True

namespace Forming

variable {hidden : Hidden} {lib now : Library} {k : ClassId} {own : Prop} {w : ModificationId}
  {parent : Option ClassId} {table : OrderedMap (Option String) ClassId}

theorem released (forming : Forming hidden lib k own w parent table now) : now.Sound hidden := by
  refine forming.sound.weaken (fun _ => .inl) (fun _ => .inl) ?_
  rintro c m (hides | rfl) has secret
  · exact hides
  · rw [forming.role] at has
    cases has
    exact absurd secret forming.apart

theorem mergeBase {fuel : Nat} {merge : Builder} (shapes : Shapes fuel merge) {given : ClassId}
    (sound : lib.Sound hidden) (opened : lib.Open hidden given)
    (forming : Forming hidden lib k own w parent table now) (single : Bool) (clause : ExtendsClause) :
    (mergeBase merge given k w single clause).Ensures now (fun _ next =>
      Forming hidden lib k own w parent (table.union (lib.brought (lib.visible fuel) given clause.component)) next ∧
      (own → ∃ list, (next.modificationOf w).arguments = (now.modificationOf w).arguments ++ list ∧
        Brings (Gathers fuel) merge lib given k now clause list)) anyhow := by
  have there := forming.onward.known opened.1
  have before := forming
  unfold Build.mergeBase
  refine (baseClass_sound now forming.sound given clause.component there).ran.bind ?_
  rintro base now₁ ⟨⟨sound₁, onward₁, opened₁, stands, brings⟩, finds⟩
  replace forming := forming.after sound₁ onward₁
  refine (passing_eq.pathText base now₁).bind ?_
  rintro path now₁ rfl
  refine (passing_eq.pathText given now₁).bind ?_
  rintro outer now₁ rfl
  have same : ∀ fuel, now₁.visible fuel base = lib.brought (lib.visible fuel) given clause.component :=
    fun fuel => (brings fuel).trans (brought_grown sound before.onward.toGrown
      (fun e known => visible_grown sound before.onward.toGrown fuel e known) given opened.1 _)
  have named : elementaryNames.contains clause.component.name = false →
      (lib.findClass? given clause.component.names).map lib.originOf = some (now₁.originOf base) := by
    intro other
    rw [← stands other, findClass?_grown sound before.onward.toGrown _ given opened.1]
    exact Option.map_congr fun d found => (before.onward.originOf d
      (open_findClass? sound _ given d (names_ne_nil _) found).1).symm
  extract_lets checked
  split
  · exact (ensures_bind _ _).2 (.throw)
  unfold checked
  rw [bind_classOf]
  have around := fun p has => ((sound₁.closed base).parent p has).1
  extract_lets rest typed
  have merge_ : ∀ now₂, Forming hidden lib k own w parent table now₂ →
      now₂ = (if (now₁.classOf base).type = "__builtin" then
        now₁.modifyClass k fun e => { e with type := (now₁.classOf base).type } else now₁) →
      now₂.classes.size = now₁.classes.size → now₂.visible = now₁.visible →
      now₂.originOf base = now₁.originOf base → (now₂.classOf base).parent = (now₁.classOf base).parent →
      now₂.modifications = now₁.modifications →
      (rest ()).Ensures now₂ (fun _ next => Forming hidden lib k own w parent
          (table.union (lib.brought (lib.visible fuel) given clause.component)) next ∧
        (own → ∃ list, (next.modificationOf w).arguments = (now.modificationOf w).arguments ++ list ∧
            Brings (Gathers fuel) merge lib given k now clause list)) anyhow := by
    intro now₂ forming typing sizes alike origin outside lists
    have opened₂ : now₂.Open (hidden.insert k own w) base := ⟨sizes ▸ opened₁.1, opened₁.2⟩
    unfold rest
    refine (shapes _ base _ _ now₂ forming.sound opened₂ fun p has => sizes ▸ around p has).ran.bind ?_
    rintro merged now₃ ⟨⟨⟨v, made⟩, gathers⟩, makes⟩
    have still : own → (now₃.modificationOf w).arguments = (now.modificationOf w).arguments := by
      intro mine
      have here : now₂.modificationOf w = now₁.modificationOf w := by
        unfold Library.modificationOf
        rw [lists]
      rw [made.onward.waiting w (.inr ⟨mine, rfl⟩), here, onward₁.waiting w (.inr ⟨mine, rfl⟩)]
    have noted := forming.notes
    have kept := made.onward.classOf k forming.known
    have apart : merged ≠ k := fun same => lt_irrefl _ ((same ▸ forming.known).trans_le made.new)
    replace forming := forming.after made.released made.onward
    rw [alike, same] at made
    refine (forming.takeOver merged made.known).bind fun _ now₄ taken => ?_
    obtain ⟨taken, others, left⟩ := taken
    rw [made.classes] at taken
    have role : (now₄.classOf merged).role = .instance_ v := by
      rw [others merged apart]
      exact made.role
    unfold environmentOf
    rw [ensures_bind, bind_classOf, role, ensures_pure, ensures_bind, ensures_argumentsOf]
    refine (ensures_bind _ _).2 ((ensures_updateModification w _).2 ?_)
    refine ((taken.modifyModification w taken.apart _).limitVisibility k clause.visibility).imp ?_
    rintro _ next ⟨formed, unmoved⟩
    refine ⟨formed, fun mine => ⟨(now₄.modificationOf v).arguments, ?_, base, now₂, merged, now₃,
      ⟨now₁, finds, typing, makes⟩, fun other => ?_, outside ▸ gathers, ?_⟩⟩
    · have last : next.modificationOf w = (now₄.modifyModification w
          (· ++ (now₄.modificationOf v).arguments)).modificationOf w := by
        unfold Library.modificationOf
        rw [unmoved]
        rfl
      rw [last, modificationOf_modifyModification_self now₄ w _ taken.waits, left w (forming.notes_ne mine), still mine]
    · rw [origin]
      exact named other
    · intro definition
      rw [left v, made.waiting_eq]
      rintro n has rfl
      rw [kept] at has
      exact lt_irrefl _ ((noted n has).1.trans_le (made.later definition))
  split
  · next builtin =>
    split
    · unfold typed
      rw [bind_updateClass]
      have mine := forming.sound.classes k forming.known
      have changed := forming.modifyClass (fun e => { e with type := (now₁.classOf base).type })
        rfl rfl rfl rfl forming.unique mine.holds.symbols mine.nested mine.functions
      rw [forming.classes] at changed
      refine merge_ _ changed (if_pos builtin).symm (classes_size_modifyClass ..)
        (visible_congr (classes_size_modifyClass ..) fun c => ?_) (congrFun (originOf_modifyClass now₁ k _ rfl) base)
        (classOf_modifyClass_of now₁ k base _ rfl (fun _ => rfl) (motive := (·.parent = _))) rfl
      exact classOf_modifyClass_of now₁ k c _ ⟨rfl, rfl, rfl, rfl⟩ (fun _ => ⟨rfl, rfl, rfl, rfl⟩)
        (motive := fun d => d.parent = _ ∧ d.bases = _ ∧ d.classes = _ ∧ d.origin = _)
    · exact (ensures_bind _ _).2 (.throw)
  · next other => exact merge_ now₁ forming (if_neg other).symm rfl rfl rfl rfl rfl

theorem modifyValue (forming : Forming hidden lib k own w parent table now) :
    (modifyValue k w).Ensures now (fun _ next => ∃ v, Forming hidden lib k own v parent table next)
      anyhow := by
  refine (modifyValue_steps now k w).imp ?_
  rintro _ _ (rfl | ⟨-, v, -, mid, steps, rfl⟩)
  · exact ⟨w, forming⟩
  -- the modifications are no longer hidden, and other ones wait in their place
  have shown : Forming hidden lib k False w parent table now :=
    { forming with
      sound := forming.sound.weaken (fun _ => id) (fun _ hides => hides.imp_right fun no => no.1.elim)
        fun _ _ hides _ _ => hides
      later := False.elim
      notes := fun n has => ⟨(forming.notes n has).1, fun hides =>
        (forming.notes n has).2 (hides.imp_right fun no => no.1.elim)⟩ }
  have ready : Forming hidden lib k False w parent table mid := by
    have before := shown.sound.symbol v
    obtain ⟨m, f, has, rfl⟩ | rfl := steps
    · exact shown.modifyModification m (fun hides => (before.modification m has).2 (.inl hides)) f
    · refine shown.modifySymbol v _ ⟨before.type, before.connector, ?_⟩
      rintro m ⟨⟩
      exact ⟨forming.waits, fun hides => hides.elim forming.apart fun no => no.1⟩
  have pushed := ready.after (ready.sound.pushModification [])
    ((Onward.refl _ mid).pushModification ready.sound.hiddenModifications [])
  have mine := pushed.sound.classes k pushed.known
  have new : mid.nextModification.index < (mid.pushModification []).modifications.size := nextModification_lt ..
  have sound := pushed.sound_modifyClass (fun e => { e with role := .instance_ mid.nextModification }) rfl rfl
    (fun m has => by cases has; exact new) mine.holds.symbols mine.nested mine.functions
  have here := (classOf_modifyClass_self (mid.pushModification []) k · pushed.known)
  refine ⟨mid.nextModification, sound.hide own (fun _ => new) ?_ ?_,
    pushed.onward.modifyClass k ready.new _, ready.new, ?_, ?_, ?_, ?_, ?_, new, ?_, ?_, ?_⟩
  · intro _ s there has
    exact lt_irrefl _ ((ready.sound.symbols s there).modification _ has).1
  · intro _ c there other has
    rw [classOf_modifyClass_ne _ _ _ _ (Ne.symm other)] at has
    rw [classes_size_modifyClass] at there
    exact lt_irrefl _ ((ready.sound.classes c there).environment _ has)
  · rw [here]
    exact ready.around
  · rw [here]
  · rw [originOf_modifyClass _ _ _ rfl]
    exact ready.origin
  · exact fun hides => lt_irrefl _ (ready.sound.hiddenModifications _ (.inl hides))
  · exact fun _ => ready.onward.moreModifications
  · rw [here]
    intro n has
    have free := ready.notes n has
    refine ⟨free.1.trans new, ?_⟩
    rintro (hides | ⟨_, rfl⟩)
    · exact free.2 (.inl hides)
    · exact lt_irrefl _ free.1
  · rw [here]
    exact pushed.unique
  · rw [here, originOf_modifyClass _ _ _ rfl]
    exact pushed.classes

end Forming

theorem modifyValue_ensures (lib : Library) (k : ClassId) (w : ModificationId)
    (known : k.In lib) : (modifyValue k w).Ensures lib
      (fun _ next => (next.classOf k).type = "__builtin" ∨ lib = next) anyhow := by
  refine (modifyValue_steps lib k w).imp ?_
  rintro _ _ (rfl | ⟨builtin, v, -, mid, steps, rfl⟩)
  · exact .inr rfl
  · obtain ⟨m, f, -, rfl⟩ | rfl := steps <;> rw [classOf_modifyClass_self _ k _ (by exact known)] <;> exact .inl builtin

def complete (merge : Builder) (given : ClassId) (d : ClassDef) (environment : Option ModificationId)
    (w : ModificationId) (k : ClassId) : Build ClassId := do
  for clause in d.extends_ do
    mergeBase merge given k w (d.extends_.length ≤ 1) clause
  takeOver k given
  if let some m := environment then appendArguments w (← argumentsOf m)
  modifyValue k w
  return k

theorem mergeBases_begins (fuel : Nat) {hidden : Hidden} {given : ClassId}
    {environment : Option ModificationId} {parent : Option ClassId} {lib : Library}
    (sound : lib.Sound hidden) (opened : lib.Open hidden given)
    (around : ∀ p, parent = some p → p.In lib) {good : ClassId → Library → Prop}
    {bad : Error → Library → Prop}
    (then_ : ∀ w (start : Library), start = lib.pushModification [] ∨
        start = (lib.pushModification []).pushModification [] →
      beginInstance given parent lib = .ok (start.nextClass, w) (start.pushClass
          (ClassDef.begun (lib.classOf given) lib.nextModification parent w start.nextClass)) →
      ((∀ e, (lib.classOf given).role ≠ .instance_ e) → (start.modificationOf w).arguments = []) →
      Forming hidden lib start.nextClass (∀ e, (lib.classOf given).role ≠ .instance_ e) w parent .empty (start.pushClass
          (ClassDef.begun (lib.classOf given) lib.nextModification parent w start.nextClass)) →
      (complete (mergeBases fuel) given (lib.classOf given) environment w start.nextClass).Ensures (start.pushClass
          (ClassDef.begun (lib.classOf given) lib.nextModification parent w start.nextClass)) good bad) :
    (mergeBases (fuel + 1) given environment parent).Ensures lib good bad := by
  unfold mergeBases
  rw [bind_classOf, ensures_bind, ensures_addModification]
  extract_lets rest
  have sound₁ := sound.pushModification []
  have onward₁ := (Onward.refl hidden lib).pushModification sound.hiddenModifications []
  have free : (lib.pushModification []).Free hidden lib.nextModification := by
    refine ⟨?_, fun hides => lt_irrefl _ (sound.hiddenModifications _ hides)⟩
    exact nextModification_lt ..
  split
  · next e has =>
    have none : ¬ ∀ e, (lib.classOf given).role ≠ .instance_ e := fun yes => yes e has
    have its := sound.classes given opened.1
    rw [ensures_bind, ensures_pure]
    unfold rest
    rw [ensures_bind, ensures_addClass]
    have waits : (lib.pushModification []).Free hidden e := onward₁.free
      ⟨its.environment e has, fun hides => opened.2 (its.secret e has hides)⟩
    exact then_ e _ (.inl rfl) (beginInstance_of_instance has) (fun yes => absurd yes none) (.start sound₁ onward₁ _
      lib.nextModification around rfl rfl rfl rfl rfl rfl rfl free waits (fun yes => absurd yes none)
      fun yes => absurd yes none)
  · next other =>
    rw [ensures_bind, ensures_addModification]
    unfold rest
    rw [ensures_bind, ensures_addClass]
    have sound₂ := sound₁.pushModification []
    have onward₂ := onward₁.pushModification sound.hiddenModifications []
    have less : lib.modifications.size < (lib.pushModification []).nextModification.index := by
      show _ < (lib.pushModification []).modifications.size
      exact nextModification_lt ..
    have waits : ((lib.pushModification []).pushModification []).Free hidden
        (lib.pushModification []).nextModification := by
      refine ⟨?_, fun hides => Nat.lt_asymm less (sound.hiddenModifications _ hides)⟩
      exact nextModification_lt ..
    have empty := congrArg Modification.arguments (modificationOf_pushModification_self (lib.pushModification []) [])
    refine then_ _ _ (.inr rfl) (beginInstance_of_definition other) (fun _ => empty) (.start sound₂ onward₂ _ lib.nextModification around
      rfl rfl rfl rfl rfl rfl rfl ((Grown.refl _).pushModification [] |>.free free) waits
      (fun _ => ⟨less.le, ?_⟩) fun _ => ⟨fun s there has => ?_, fun c there has => ?_⟩)
    · intro same
      exact lt_irrefl _ (same ▸ less)
    · exact Nat.lt_asymm less ((sound.symbols s there).modification _ has).1
    · exact Nat.lt_asymm less ((sound.classes c there).environment _ has)

theorem mergeBases_shapes (fuel : Nat) : Shapes fuel (mergeBases fuel) := by
  induction fuel with
  | zero => exact fun _ _ _ _ _ _ _ _ => .throw
  | succ fuel ih =>
    intro hidden given environment parent lib sound opened around
    generalize own : (∀ e, (lib.classOf given).role ≠ .instance_ e) = mine
    suffices (mergeBases (fuel + 1) given environment parent).Ensures lib (fun k next => ∃ w,
        Forming hidden lib k mine w parent (lib.visible (fuel + 1) given) next ∧
        (mine → (next.classOf k).type ≠ "__builtin" →
          Gathered (Gathers fuel) (mergeBases fuel) lib given environment parent k w next)) anyhow by
      refine this.ran.imp ?_
      rintro k next ⟨⟨w, formed, gathered⟩, ran⟩
      exact ⟨⟨w, formed⟩, ran, fun yes other => ⟨w, formed.role, gathered (own ▸ yes) other⟩⟩
    refine mergeBases_begins fuel sound opened around fun w start _ begins empty forming => ?_
    rw [own] at empty forming
    generalize start.nextClass = k at *
    have nothing : mine → ((start.pushClass (ClassDef.begun (lib.classOf given) lib.nextModification
        parent w k)).modificationOf w).arguments = [] := empty
    generalize start.pushClass (ClassDef.begun (lib.classOf given) lib.nextModification parent w k) =
      begun at begins forming nothing ⊢
    unfold complete
    rw [ensures_bind]
    refine ensures_forIn _ _ _ (fun done _ now => Forming hidden lib k mine w parent
      (lib.inherited (lib.visible fuel) given (done.map (·.component))) now ∧
      forM done (clauseStep (mergeBases fuel) lib given k w) begun = .ok ⟨⟩ now ∧
      (mine → ∃ lists : List (List ArgumentId), (now.modificationOf w).arguments = lists.flatten ∧
        BringsAll (Gathers fuel) (mergeBases fuel) lib given k (clauseStep (mergeBases fuel) lib given k w)
          begun done lists))
      ⟨forming, rfl, fun yes => ⟨[], nothing yes, rfl, by simp⟩⟩ ?_ ?_
    · rintro done clause rest ⟨⟩ now all ⟨forming, reached, lists⟩
      refine (forming.mergeBase ih sound opened _ clause).ran.bind ?_
      rintro _ next ⟨merged, ran⟩
      rw [ensures_pure]
      refine ⟨?_, forM_snoc reached ran, fun yes => ?_⟩
      · rw [List.map_append, inherited, List.foldl_append]
        exact merged.1
      · obtain ⟨before, list, brings⟩ := lists yes
        obtain ⟨more, longer, last⟩ := merged.2 yes
        refine ⟨before ++ [more], ?_, brings.snoc reached last⟩
        rw [longer, list, List.flatten_append, List.flatten_singleton]
    · rintro ⟨⟩ now ⟨forming, _, lists⟩
      refine (forming.takeOver given (forming.onward.known opened.1)).bind fun _ now' taken => ?_
      obtain ⟨formed, _, left⟩ := taken
      have table : (lib.inherited (lib.visible fuel) given (lib.classOf given).bases).union
          ((now.classOf given).classes.mapValues now.originOf) = lib.visible (fuel + 1) given := by
        rw [forming.onward.classOf given opened.1, forming.onward.mapValues _ fun e member => (sound.nested member).1]
        rfl
      change Forming hidden lib k mine w parent
        ((lib.inherited (lib.visible fuel) given (lib.classOf given).bases).union _) now' at formed
      rw [table] at formed
      replace lists := fun yes => left w (forming.notes_ne yes) ▸ lists yes
      extract_lets last
      have ended : ∀ now, Forming hidden lib k mine w parent (lib.visible (fuel + 1) given) now →
          (mine → Gathered (Gathers fuel) (mergeBases fuel) lib given environment parent k w now) →
          (last ()).Ensures now (fun k next => ∃ w,
            Forming hidden lib k mine w parent (lib.visible (fuel + 1) given) next ∧
            (mine → (next.classOf k).type ≠ "__builtin" →
              Gathered (Gathers fuel) (mergeBases fuel) lib given environment parent k w next)) anyhow := by
        intro now forming gathered
        have both := forming.modifyValue.and (modifyValue_ensures now k w forming.known)
        refine (both.mono (fun _ _ => id) fun _ _ _ => trivial).bind ?_
        rintro _ next ⟨⟨v, formed⟩, builtin | rfl⟩
        · exact (ensures_pure k).2 ⟨v, formed, fun _ other => absurd builtin other⟩
        · exact (ensures_pure k).2 ⟨w, forming, fun yes _ => gathered yes⟩
      split
      · next m =>
        rw [ensures_bind, ensures_argumentsOf]
        refine (ensures_bind _ _).2 ((ensures_updateModification w _).2
          (ended _ (formed.modifyModification w formed.apart _) fun yes => ?_))
        obtain ⟨lists, list, brings⟩ := lists yes
        refine ⟨begun, lists, (now'.modificationOf m).arguments, begins, ?_, brings, nofun, ?_⟩
        · rw [modificationOf_modifyModification_self now' w _ formed.waits, list]
        · rintro _ ⟨⟩ apart
          rw [modificationOf_modifyModification_ne now' w m _ apart]
      · refine ended _ formed fun yes => ?_
        obtain ⟨lists, list, brings⟩ := lists yes
        exact ⟨begun, lists, [], begins, by rw [list, List.append_nil], brings, fun _ => rfl, by simp_all⟩

end Build

end Modelica
