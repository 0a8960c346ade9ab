import Mathlib.Tactic.Spread
import Modelica.Proofs.Library.Entries

set_option autoImplicit false

namespace Modelica

def Symbol.Alike (s t : Symbol) : Prop :=
  { s with modification := none } = { t with modification := none }

theorem Symbol.Alike.refl (s : Symbol) : s.Alike s := rfl

theorem Symbol.Alike.trans {s t u : Symbol} (first : s.Alike t) (second : t.Alike u) : s.Alike u :=
  Eq.trans first second

theorem Symbol.Alike.apply {s t : Symbol} (alike : s.Alike t) {α : Type} (f : Symbol → α)
    (ignores : ∀ s : Symbol, f { s with modification := none } = f s) : f s = f t := by
  rw [← ignores s, ← ignores t]
  exact congrArg f alike

namespace Library

def Idle (lib : Library) (s : SymbolId) : Prop :=
  ∀ m, (lib.symbolOf s).modification = some m →
    m.index < lib.modifications.size ∧ (lib.modificationOf m).arguments = []

structure Later (lib next : Library) : Prop where
  moreClasses : lib.classes.size ≤ next.classes.size
  moreSymbols : lib.symbols.size ≤ next.symbols.size
  moreModifications : lib.modifications.size ≤ next.modifications.size
  moreArguments : lib.arguments.size ≤ next.arguments.size
  classOf : ∀ c, c.index < lib.classes.size → next.classOf c = lib.classOf c
  symbolOf : ∀ s, s.index < lib.symbols.size → (next.symbolOf s).Alike (lib.symbolOf s)
  idle : ∀ s, s.index < lib.symbols.size → lib.Idle s → next.Idle s
  modificationOf : ∀ m, m.index < lib.modifications.size →
    next.modificationOf m = lib.modificationOf m
  argumentOf : ∀ a, a.index < lib.arguments.size → next.argumentOf a = lib.argumentOf a

namespace Later

variable {lib now next : Library}

theorem refl (lib : Library) : lib.Later lib :=
  ⟨le_rfl, le_rfl, le_rfl, le_rfl, fun _ _ => rfl, fun _ _ => .refl _, fun _ _ => id, fun _ _ => rfl, fun _ _ => rfl⟩

theorem trans (first : lib.Later now) (second : now.Later next) : lib.Later next where
  moreClasses := first.moreClasses.trans second.moreClasses
  moreSymbols := first.moreSymbols.trans second.moreSymbols
  moreModifications := first.moreModifications.trans second.moreModifications
  moreArguments := first.moreArguments.trans second.moreArguments
  classOf c known := (second.classOf c (known.trans_le first.moreClasses)).trans (first.classOf c known)
  symbolOf s known := (second.symbolOf s (known.trans_le first.moreSymbols)).trans (first.symbolOf s known)
  idle s known quiet := second.idle s (known.trans_le first.moreSymbols) (first.idle s known quiet)
  modificationOf m known :=
    (second.modificationOf m (known.trans_le first.moreModifications)).trans (first.modificationOf m known)
  argumentOf a known := (second.argumentOf a (known.trans_le first.moreArguments)).trans (first.argumentOf a known)

section

variable (later : lib.Later now)
include later

theorem touch {e : Entry} (touches : now.Touches next e) (new : ¬ lib.Has e)
    (unused : ∀ s, s.In lib → lib.Idle s →
      ∀ m, (now.symbolOf s).modification = some m → m.In now →
        .modification m ≠ e) : lib.Later next where
  moreClasses := later.moreClasses.trans touches.moreClasses
  moreSymbols := later.moreSymbols.trans touches.moreSymbols
  moreModifications := later.moreModifications.trans touches.moreModifications
  moreArguments := later.moreArguments.trans touches.moreArguments
  classOf c known :=
    Eq.trans (touches.old new (.class_ c) known (known.trans_le later.moreClasses)) (later.classOf c known)
  symbolOf s known := by
    have there := known.trans_le later.moreSymbols
    rw [show next.symbolOf s = now.symbolOf s from touches.old new (.symbol s) known there]
    exact later.symbolOf s known
  idle s known quiet m has := by
    have there := known.trans_le later.moreSymbols
    rw [show next.symbolOf s = now.symbolOf s from touches.old new (.symbol s) known there] at has
    obtain ⟨inside, none⟩ := later.idle s known quiet m has
    have kept : next.modificationOf m = now.modificationOf m :=
      touches.same (.modification m) inside (unused s known quiet m has inside)
    rw [kept]
    exact ⟨inside.trans_le touches.moreModifications, none⟩
  modificationOf m known :=
    Eq.trans (touches.old new (.modification m) known
      (known.trans_le later.moreModifications)) (later.modificationOf m known)
  argumentOf a known :=
    Eq.trans (touches.old new (.argument a) known (known.trans_le later.moreArguments)) (later.argumentOf a known)

theorem pushClass (d : ClassDef) : lib.Later (now.pushClass d) :=
  later.touch (now.touches_pushClass d) (not_lt.2 later.moreClasses) (by simp)

theorem pushSymbol (d : Symbol) : lib.Later (now.pushSymbol d) :=
  later.touch (now.touches_pushSymbol d) (not_lt.2 later.moreSymbols) (by simp)

theorem pushModification (as : List ArgumentId) : lib.Later (now.pushModification as) := by
  refine later.touch (now.touches_pushModification as) (not_lt.2 later.moreModifications) ?_
  rintro s - - m - inside ⟨⟩
  exact lt_irrefl _ inside

theorem modifyClass (c : ClassId) (new : c.New lib) (f : ClassDef → ClassDef) :
    lib.Later (now.modifyClass c f) :=
  later.touch (now.touches_modifyClass c f) (not_lt.2 new) (by simp)

theorem modifySymbol (s : SymbolId) (f : Symbol → Symbol)
    (allowed : s.In lib → (f (now.symbolOf s)).Alike (now.symbolOf s) ∧
      ∀ m, (f (now.symbolOf s)).modification = some m →
        m.In now ∧ (now.modificationOf m).arguments = []) :
    lib.Later (now.modifySymbol s f) where
  __ := later
  moreSymbols := by simpa using later.moreSymbols
  symbolOf t known := by
    have before := later.symbolOf t known
    refine symbolOf_modifySymbol_of _ _ _ _ (motive := (·.Alike _)) before ?_
    rintro rfl
    exact (allowed known).1.trans before
  idle t known quiet := by
    refine symbolOf_modifySymbol_of now _ _ _ (motive := fun d => ∀ m, d.modification = some m →
      m.In now ∧ (now.modificationOf m).arguments = []) (later.idle t known quiet) ?_
    rintro rfl
    exact (allowed known).2

theorem modifyModification (m : ModificationId) (new : lib.modifications.size ≤ m.index)
    (unused : ∀ s, s.In lib → lib.Idle s →
      (now.symbolOf s).modification ≠ some m) (f : List ArgumentId → List ArgumentId) :
    lib.Later (now.modifyModification m f) := by
  refine later.touch (now.touches_modifyModification m f) (not_lt.2 new) ?_
  rintro s known quiet n has - ⟨⟩
  exact unused s known quiet has

end

end Later

end Library

end Modelica
