import Modelica.Proofs.Library.Entries
import Modelica.Proofs.Library.Walk

set_option autoImplicit false

namespace Modelica

namespace Library

structure Holds (lib : Library) (c : ClassId) (d : ClassDef) : Prop where
  parent : ∀ p, d.parent = some p → p.index < lib.classes.size ∧ p ≠ c
  symbols : ∀ s ∈ d.symbols.values, s.index < lib.symbols.size

def Closed (lib : Library) : Prop := ∀ c, lib.Holds c (lib.classOf c)

theorem Holds.mono {lib next : Library} {c : ClassId} {d : ClassDef} (holds : lib.Holds c d)
    (classes : lib.classes.size ≤ next.classes.size)
    (symbols : lib.symbols.size ≤ next.symbols.size) : next.Holds c d where
  parent p has := ⟨(holds.parent p has).1.trans_le classes, (holds.parent p has).2⟩
  symbols s member := (holds.symbols s member).trans_le symbols

section Chain

variable {lib : Library} {P : ClassId → Prop} (step : ∀ c p, P c → (lib.classOf c).parent = some p → P p)
include step

theorem chain_induct (n : Nat) (c e : ClassId) (start : P c) (member : e ∈ lib.chain n c) : P e := by
  induction n generalizing c with
  | zero => cases member
  | succ n ih =>
    unfold chain at member
    obtain rfl | member := List.mem_cons.1 member
    · exact start
    · split at member
      · contradiction
      · next p has => exact ih p (step c p start has) member

theorem rootOf_induct (c : ClassId) (start : P c) : P (lib.rootOf c) := by
  unfold rootOf
  cases last : (lib.enclosing c).getLast? with
  | none => exact start
  | some e => exact chain_induct step _ c e start (List.mem_of_getLast? last)

end Chain

section

variable {lib : Library} (closed : lib.Closed)
include closed

theorem Closed.parent_known (c p : ClassId) (_ : c.In lib)
    (has : (lib.classOf c).parent = some p) : p.In lib :=
  ((closed c).parent p has).1

theorem Closed.pushClass (d : ClassDef) (holds : lib.Holds lib.nextClass d) :
    (lib.pushClass d).Closed := by
  intro c
  have more : lib.classes.size ≤ (lib.pushClass d).classes.size := by
    rw [classes_size_pushClass]
    omega
  by_cases new : c.index = lib.classes.size
  · have same : c = lib.nextClass := by cases c; cases new; rfl
    subst same
    rw [classOf_pushClass_self]
    exact holds.mono more le_rfl
  · rw [classOf_pushClass_ne lib c d new]
    exact (closed c).mono more le_rfl

theorem Closed.modifyClass (c : ClassId) (f : ClassDef → ClassDef)
    (holds : c.In lib → lib.Holds c (f (lib.classOf c))) :
    (lib.modifyClass c f).Closed := by
  intro d
  have more : lib.classes.size ≤ (lib.modifyClass c f).classes.size :=
    Nat.le_of_eq (classes_size_modifyClass lib c f).symm
  refine getD_modify_of _ _ _ _ _ (motive := Holds _ d) ((closed d).mono more le_rfl) ?_
  intro same known
  cases c
  cases same
  exact (holds known).mono more le_rfl

end

structure Extended (lib next : Library) : Prop where
  moreClasses : lib.classes.size ≤ next.classes.size
  moreSymbols : lib.symbols.size ≤ next.symbols.size
  moreModifications : lib.modifications.size ≤ next.modifications.size
  moreArguments : lib.arguments.size ≤ next.arguments.size
  classOf : ∀ c, c.index < lib.classes.size →
    ∃ origin, next.classOf c = { lib.classOf c with origin := origin }
  symbolOf : ∀ s, s.index < lib.symbols.size → next.symbolOf s = lib.symbolOf s
  modificationOf : ∀ m, m.index < lib.modifications.size →
    next.modificationOf m = lib.modificationOf m
  argumentOf : ∀ a, a.index < lib.arguments.size → next.argumentOf a = lib.argumentOf a
  closed : lib.Closed → next.Closed

theorem classOf_of_le (lib : Library) (c : ClassId) (unknown : c.New lib) :
    lib.classOf c = { origin := c } := by
  simp [Library.classOf, unknown]

namespace Extended

variable {lib now next : Library}

theorem refl (lib : Library) : lib.Extended lib :=
  ⟨le_rfl, le_rfl, le_rfl, le_rfl, fun c _ => ⟨(lib.classOf c).origin, rfl⟩,
    fun _ _ => rfl, fun _ _ => rfl, fun _ _ => rfl, id⟩

theorem trans (first : lib.Extended now) (second : now.Extended next) : lib.Extended next where
  moreClasses := first.moreClasses.trans second.moreClasses
  moreSymbols := first.moreSymbols.trans second.moreSymbols
  moreModifications := first.moreModifications.trans second.moreModifications
  moreArguments := first.moreArguments.trans second.moreArguments
  classOf c known := by
    obtain ⟨_, before⟩ := first.classOf c known
    obtain ⟨o, after⟩ := second.classOf c (known.trans_le first.moreClasses)
    exact ⟨o, by rw [after, before]⟩
  symbolOf s known := by
    rw [second.symbolOf s (known.trans_le first.moreSymbols), first.symbolOf s known]
  modificationOf m known := by
    rw [second.modificationOf m (known.trans_le first.moreModifications), first.modificationOf m known]
  argumentOf a known := by
    rw [second.argumentOf a (known.trans_le first.moreArguments), first.argumentOf a known]
  closed given := second.closed (first.closed given)

section

variable (ext : lib.Extended now)
include ext

theorem touch {e : Entry} (touches : now.Touches next e) (new : ¬ lib.Has e)
    (closed : lib.Closed → next.Closed) : lib.Extended next where
  moreClasses := ext.moreClasses.trans touches.moreClasses
  moreSymbols := ext.moreSymbols.trans touches.moreSymbols
  moreModifications := ext.moreModifications.trans touches.moreModifications
  moreArguments := ext.moreArguments.trans touches.moreArguments
  classOf c known := by
    obtain ⟨o, before⟩ := ext.classOf c known
    have there := known.trans_le ext.moreClasses
    exact ⟨o, Eq.trans (touches.old new (.class_ c) known there) before⟩
  symbolOf s known :=
    Eq.trans (touches.old new (.symbol s) known (known.trans_le ext.moreSymbols)) (ext.symbolOf s known)
  modificationOf m known :=
    Eq.trans (touches.old new (.modification m) known
      (known.trans_le ext.moreModifications)) (ext.modificationOf m known)
  argumentOf a known :=
    Eq.trans (touches.old new (.argument a) known (known.trans_le ext.moreArguments)) (ext.argumentOf a known)
  closed := closed

theorem pushClass (d : ClassDef) (holds : lib.Closed → now.Holds now.nextClass d) : lib.Extended (now.pushClass d) :=
  ext.touch (now.touches_pushClass d) (not_lt.2 ext.moreClasses) fun given =>
    (ext.closed given).pushClass d (holds given)

theorem pushSymbol (d : Symbol) : lib.Extended (now.pushSymbol d) :=
  ext.touch (now.touches_pushSymbol d) (not_lt.2 ext.moreSymbols) fun given c =>
    (ext.closed given c).mono le_rfl (now.touches_pushSymbol d).moreSymbols

theorem pushModification (as : List ArgumentId) : lib.Extended (now.pushModification as) :=
  ext.touch (now.touches_pushModification as) (not_lt.2 ext.moreModifications) fun given c =>
    (ext.closed given c).mono le_rfl le_rfl

theorem pushArgument (d : Argument) : lib.Extended (now.pushArgument d) :=
  ext.touch (now.touches_pushArgument d) (not_lt.2 ext.moreArguments) fun given c =>
    (ext.closed given c).mono le_rfl le_rfl

theorem modifyClass (c : ClassId) (f : ClassDef → ClassDef) (allowed : c.In lib →
      ∃ origin, f (now.classOf c) = { now.classOf c with origin := origin })
    (holds : lib.Closed → c.In now → now.Holds c (f (now.classOf c))) :
    lib.Extended (now.modifyClass c f) where
  __ := ext
  moreClasses := by simpa using ext.moreClasses
  classOf d known := by
    obtain ⟨o, before⟩ := ext.classOf d known
    refine classOf_modifyClass_of now c d f (motive := fun e => ∃ o, e = { lib.classOf d with origin := o })
      ⟨o, before⟩ ?_
    rintro rfl
    obtain ⟨origin, changed⟩ := allowed known
    exact ⟨origin, by rw [changed, before]⟩
  closed given := (ext.closed given).modifyClass c f (holds given)

theorem modifySymbol (s : SymbolId) (new : s.New lib) (f : Symbol → Symbol) :
    lib.Extended (now.modifySymbol s f) :=
  ext.touch (now.touches_modifySymbol s f) (not_lt.2 new) fun given c =>
    (ext.closed given c).mono le_rfl (now.touches_modifySymbol s f).moreSymbols

theorem modifyModification (m : ModificationId) (new : lib.modifications.size ≤ m.index)
    (f : List ArgumentId → List ArgumentId) : lib.Extended (now.modifyModification m f) :=
  ext.touch (now.touches_modifyModification m f) (not_lt.2 new) fun given c => (ext.closed given c).mono le_rfl le_rfl

theorem modifyArgument (a : ArgumentId) (new : lib.arguments.size ≤ a.index)
    (f : Argument → Argument) : lib.Extended (now.modifyArgument a f) :=
  ext.touch (now.touches_modifyArgument a f) (not_lt.2 new) fun given c => (ext.closed given c).mono le_rfl le_rfl

end

end Extended

end Library

namespace Copy

open Build Library

def Fresh (lib : Library) (s : SymbolId) (now : Library) : Prop :=
  lib.symbols.size ≤ s.index ∧ s.index < now.symbols.size

structure Adding (lib : Library) (memo : Memo) (now : Library) : Prop where
  ext : lib.Extended now
  symbols : ∀ p ∈ memo.symbols, Fresh lib p.2 now
  arguments : ∀ p ∈ memo.arguments, lib.arguments.size ≤ p.2.index

variable {lib now next : Library} {memo : Memo}

theorem Fresh.later {s : SymbolId} (fresh : Fresh lib s now)
    (more : now.symbols.size ≤ next.symbols.size) : Fresh lib s next :=
  ⟨fresh.1, fresh.2.trans_le more⟩

theorem Adding.start (lib : Library) : Adding lib {} lib := ⟨.refl lib, by simp, by simp⟩

theorem Adding.later (adding : Adding lib memo now) (ext : lib.Extended next)
    (more : now.symbols.size ≤ next.symbols.size) : Adding lib memo next :=
  ⟨ext, fun p member => (adding.symbols p member).later more, adding.arguments⟩

theorem Adding.withParent (adding : Adding lib memo now) (p : Option ClassId) : Adding lib (memo.withParent p) now := by
  cases p with
  | none => exact adding
  | some p => exact ⟨adding.ext, adding.symbols, adding.arguments⟩

def onlyMore : Pace where
  onward now next := now.symbols.size ≤ next.symbols.size
  refl _ := le_rfl
  trans := le_trans
  fails e := e = .unbounded

def Traced (lib now : Library) : Entry → Entry → Prop
  | .symbol _, .symbol t => Fresh lib t now
  | _, _ => True

abbrev adds (lib : Library) := onlyMore.staging (Adding lib)

structure Able (lib : Library) (fuel : Nat) : Prop where
  classes : ∀ c, (adds lib).gives (copyClass fuel c) fun _ _ => True
  origins : ∀ c, (adds lib).gives (copyOrigin fuel c) fun _ _ => True
  symbols : ∀ s, (adds lib).gives (copySymbol fuel s) fun i t => Fresh lib t i
  modifications : ∀ m, (adds lib).gives (copyModification fuel m) fun _ _ => True
  arguments : ∀ a, (adds lib).gives (copyArgument fuel a) fun _ _ => True
  values : ∀ v, (adds lib).gives (copyArgumentValue fuel v) fun _ _ => True

section Step

variable {lib : Library} {fuel : Nat} (able : Able lib fuel)

include able

theorem Able.copyClass (c : ClassId) : (adds lib).gives (copyClass (fuel + 1) c) anyhow := by
  intro memo now adding
  unfold Copy.copyClass
  refine .get ?_
  split
  · exact .pure adding le_rfl fun _ _ => trivial
  refine .lift ((ensures_classOf c).2 ?_)
  refine .bind (able.origins _ memo now adding) fun e memo next adding more _ => ?_
  split
  · exact .pure adding more fun _ _ => trivial
  · exact .modify _ (.pure ⟨adding.ext, adding.symbols, adding.arguments⟩ more fun _ _ => trivial)

theorem Able.copyNew (c : ClassId) (d : ClassDef) (memo : Memo) (now : Library)
    (adding : Adding lib memo now) (holds : lib.Closed → now.Holds c d) :
    Takes onlyMore (fun memo next => Adding lib memo next ∧ now.nextClass.New lib ∧
        ∀ s ∈ (next.classOf now.nextClass).symbols.values, Fresh lib s next) now
      (copyNew fuel c d) memo now fun _ e => e = now.nextClass := by
  unfold Copy.copyNew
  refine .lift ((ensures_addClass _).2 (.modify _ ?_))
  have later : now.nextClass.New lib := adding.ext.moreClasses
  have around : lib.Closed → ∀ p, d.parent = some p → p.index < now.nextClass.index :=
    fun closed p has => ((holds closed).parent p has).1
  have added : lib.Extended (now.pushClass { d with origin := c }) := by
    refine adding.ext.pushClass _ fun closed => ⟨fun p has => ⟨around closed p has, ?_⟩, (holds closed).symbols⟩
    rintro rfl
    exact lt_irrefl _ (around closed _ has)
  have content := classContent_made (adds lib) (Traced lib) (fun _ => True)
    (fun s _ => able.symbols s) (fun m _ => able.modifications m) d (fun _ _ => trivial)
    fun x _ => able.classes x
  refine .bind (content _ _ ⟨added, adding.symbols, adding.arguments⟩) fun e memo next adding more made => ?_
  replace made := made next le_rfl
  have fresh : ∀ s ∈ e.symbols.values, Fresh lib s next :=
    List.forall_mem_map.2 (forall_of_forall₂ (fun _ _ made => made.2) made.symbols)
  have stored : lib.Extended (next.modifyClass now.nextClass fun _ => { e with origin := c }) := by
    refine adding.ext.modifyClass _ _ (fun old => absurd later (Nat.not_le.2 old)) fun closed known =>
      ⟨fun p has => ?_, fun s member => (fresh s member).2⟩
    have lower := around closed p (made.parent ▸ has)
    refine ⟨lower.trans known, ?_⟩
    rintro rfl
    exact lt_irrefl _ lower
  refine .lift ((ensures_updateClass _ _).2 (.modify _ (.pure
    ⟨⟨stored, adding.symbols, adding.arguments⟩, later, fun s member => ?_⟩ more fun _ _ => rfl)))
  by_cases known : now.nextClass.In next
  · rw [classOf_modifyClass_self next _ _ known] at member
    exact fresh s member
  · rw [classOf_of_le _ _ (by simpa using known)] at member
    contradiction

theorem Able.copyOrigin (c : ClassId) : (adds lib).gives (copyOrigin (fuel + 1) c) anyhow := by
  intro memo now adding
  have closed := fun closed e => adding.ext.closed closed e
  have noted := adding.withParent (now.classOf c).parent
  refine copyOrigin_takes (fun e _ => .lift ((ensures_updateClass e _).2
    (.pure ⟨?_, noted.symbols, noted.arguments⟩ le_rfl fun _ _ => trivial))) fun _ => ?_
  · exact adding.ext.modifyClass e _ (fun _ => ⟨c, rfl⟩) fun given _ =>
      ⟨(closed given e).parent, (closed given e).symbols⟩
  · exact (able.copyNew c _ _ now noted fun given => closed given c).imp
      fun _ _ ⟨good, more, _⟩ => ⟨good.1, more, fun _ _ => trivial⟩

theorem Able.copySymbol (s : SymbolId) : (adds lib).gives (copySymbol (fuel + 1) s) fun i t => Fresh lib t i := by
  intro memo now adding
  rw [copySymbol_succ]
  refine .get ?_
  cases found : memo.symbols.lookup s with
  | some t =>
    exact .pure adding le_rfl fun _ more => (adding.symbols _ (mem_of_lookup _ _ _ found)).later more
  | none =>
    refine .lift ((ensures_symbolOf s).2 (.lift ((ensures_addSymbol _).2 (.modify _ ?_))))
    have less : now.symbols.size ≤ (now.pushSymbol (now.symbolOf s)).symbols.size :=
      (now.touches_pushSymbol _).moreSymbols
    have fresh : Fresh lib now.nextSymbol (now.pushSymbol (now.symbolOf s)) :=
      ⟨adding.ext.moreSymbols, nextSymbol_lt ..⟩
    have content := symbolContent_made (adds lib) (Traced lib) (fun _ => True)
      (fun s _ => able.symbols s) (fun m _ => able.modifications m) (now.symbolOf s)
      (fun _ _ => trivial) fun x _ => able.classes x
    replace adding := adding.later (adding.ext.pushSymbol _) less
    refine .bind (content _ _ ⟨adding.ext, List.forall_mem_cons.2 ⟨fresh, adding.symbols⟩,
      adding.arguments⟩) fun e memo next adding more _ => ?_
    have same := Nat.le_of_eq (symbols_size_modifySymbol next now.nextSymbol fun _ => e).symm
    have more := more.trans same
    exact .lift ((ensures_updateSymbol _ _).2 (.pure (adding.later (adding.ext.modifySymbol _ fresh.1 _) same)
      (less.trans more) fun _ further => fresh.later (more.trans further)))

theorem Able.copyModification (m : ModificationId) :
    (adds lib).gives (copyModification (fuel + 1) m) anyhow := by
  intro memo now adding
  unfold Copy.copyModification
  refine .get ?_
  split
  · exact .pure adding le_rfl fun _ _ => trivial
  refine .lift ((ensures_addModification []).2 (.modify _ (.lift ((ensures_modificationOf m).2 ?_))))
  have new : lib.modifications.size ≤ now.nextModification.index := adding.ext.moreModifications
  refine .bind (copyList_related (adds lib) _ (fun _ _ _ => True) _
    (fun a _ => able.arguments a) _ _ ⟨adding.ext.pushModification [], adding.symbols, adding.arguments⟩)
    fun as memo next adding more _ => ?_
  exact .lift ((ensures_updateModification _ _).2 (.pure
    (adding.later (adding.ext.modifyModification _ new _) le_rfl) more fun _ _ => trivial))

theorem Able.copyArgument (a : ArgumentId) : (adds lib).gives (copyArgument (fuel + 1) a) anyhow := by
  intro memo now adding
  unfold Copy.copyArgument
  refine .get ?_
  split
  · exact .pure adding le_rfl fun _ _ => trivial
  refine .lift ((ensures_argumentOf a).2 (.lift ((ensures_argumentOf _).2 (.get ?_))))
  extract_lets rest
  have finish : ∀ b memo next, Adding lib memo next → lib.arguments.size ≤ b.index →
      now.symbols.size ≤ next.symbols.size →
      Takes onlyMore (Adding lib) now (rest b) memo next anyhow := by
    intro b memo next adding new more
    exact .lift ((ensures_updateArgument b _).2 (.modify _ (.pure ⟨adding.ext.modifyArgument b new _,
      adding.symbols, List.forall_mem_cons.2 ⟨new, adding.arguments⟩⟩ more fun _ _ => trivial)))
  split
  · next b found =>
    rw [pure_bind]
    exact finish b memo now adding (adding.arguments _ (mem_of_lookup _ _ _ found)) le_rfl
  have new : lib.arguments.size ≤ now.nextArgument.index := adding.ext.moreArguments
  refine .lift ((ensures_addArgument _ _ _).2 (.modify _ ?_))
  refine .bind (able.values _ _ _ ⟨adding.ext.pushArgument _, adding.symbols, List.forall_mem_cons.2
    ⟨new, adding.arguments⟩⟩) fun value memo next adding more _ => ?_
  refine .lift ((ensures_updateArgument _ _).2 ?_)
  rw [pure_bind]
  exact finish _ memo _ (adding.later (adding.ext.modifyArgument _ new _) le_rfl) new more

theorem Able.copyArgumentValue (v : ArgumentValue) :
    (adds lib).gives (copyArgumentValue (fuel + 1) v) anyhow :=
  Staging.mono _ (copyArgumentValue_alike _ (Traced lib) (fun _ => True) (fun s _ => able.symbols s)
    (fun m _ => able.modifications m) v fun _ _ => trivial) fun _ _ _ => trivial

end Step

theorem able (lib : Library) (fuel : Nat) : Able lib fuel := by
  induction fuel with
  | zero =>
    constructor <;> intros <;> simp only [copyClass, copyOrigin, copySymbol, copyModification, copyArgument,
      copyArgumentValue] <;> exact fun _ _ _ => .throw rfl
  | succ fuel ih =>
    exact ⟨ih.copyClass, ih.copyOrigin, ih.copySymbol, ih.copyModification, ih.copyArgument, ih.copyArgumentValue⟩

end Copy

namespace Build

open Library Copy

theorem copyClass_new (lib : Library) (closed : lib.Closed) (c : ClassId) :
    (copyClass c).Ensures lib (fun e next => lib.Extended next ∧ e.New lib ∧
      ∀ s ∈ (next.classOf e).symbols.values, Fresh lib s next) fun e _ => e = .unbounded := by
  -- the class around a class is another one, so that the class is not noted yet
  have unnoted : ∀ o, (({} : Memo).withParent (lib.classOf o).parent).classes.lookup o = none := by
    intro o
    cases has : (lib.classOf o).parent with
    | none => rfl
    | some p => simp [Memo.withParent, beq_eq_false_iff_ne.2 ((closed o).parent p has).2.symm]
  have whole : ∀ fuel, Takes onlyMore (fun _ next => lib.Extended next ∧ lib.nextClass.New lib ∧
      ∀ s ∈ (next.classOf lib.nextClass).symbols.values, Fresh lib s next) lib
      (Copy.copyClass (fuel + 2) c) {} lib fun _ e => e = lib.nextClass := by
    intro fuel
    unfold Copy.copyClass
    refine .get (.lift ((ensures_classOf c).2 (.bind (copyOrigin_takes (fun e found => ?_) fun _ =>
      (able lib fuel).copyNew _ _ _ lib (.withParent (.start lib) _) fun given => given _)
      fun e memo next good more is => ?_)))
    · rw [unnoted] at found
      contradiction
    · have good := good.imp_left Adding.ext
      split
      · exact .pure good more is
      · exact .modify _ (.pure good more is)
  unfold copyClass fuelFor
  rw [bind_get, ensures_bind]
  refine (whole _).imp ?_
  rintro ⟨e, memo⟩ next ⟨good, _, is⟩
  obtain rfl : e = lib.nextClass := is next le_rfl
  exact (ensures_pure _).2 good

end Build

end Modelica
