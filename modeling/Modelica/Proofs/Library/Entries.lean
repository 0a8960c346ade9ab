import Modelica.Proofs.Library.Outcome

set_option autoImplicit false

namespace Modelica.Library

section Tables

variable {α : Type} (xs : Array α) (i j : Nat) (f : α → α) (a default : α)

theorem getD_modify_self (known : i < xs.size) : ((xs.modify i f)[i]?).getD default = f ((xs[i]?).getD default) := by
  simp [Array.getElem?_modify, Array.getElem?_eq_getElem known]

theorem getD_modify_ne (other : i ≠ j) : ((xs.modify i f)[j]?).getD default = (xs[j]?).getD default := by
  simp [Array.getElem?_modify, other]

theorem getD_push_self : ((xs.push a)[xs.size]?).getD default = a := by
  simp

theorem getD_push_ne (other : i ≠ xs.size) : ((xs.push a)[i]?).getD default = (xs[i]?).getD default := by
  simp [Array.getElem?_push, other]

theorem getD_modify_of {motive : α → Prop} (old : motive ((xs[j]?).getD default))
    (new : i = j → i < xs.size → motive (f ((xs[j]?).getD default))) : motive (((xs.modify i f)[j]?).getD default) := by
  by_cases here : i = j ∧ i < xs.size
  · obtain ⟨rfl, known⟩ := here
    rw [getD_modify_self xs i f default known]
    exact new rfl known
  · have unchanged : ((xs.modify i f)[j]?).getD default = (xs[j]?).getD default := by
      grind
    rwa [unchanged]

theorem getD_push_of {motive : α → Prop} (old : motive ((xs[i]?).getD default)) (new : motive a) :
    motive (((xs.push a)[i]?).getD default) := by
  obtain rfl | other := Decidable.em (i = xs.size)
  · rwa [getD_push_self]
  · rwa [getD_push_ne xs i a default other]

theorem getD_of_all {p : α → Bool} (all : xs.toList.all p = true) (blank : p default = true) :
    p ((xs[i]?).getD default) = true := by
  cases found : xs[i]? with
  | none => exact blank
  | some a => exact List.all_eq_true.1 all a (Array.mem_of_getElem? found).val

theorem modify_eq_self (same : i < xs.size → f ((xs[i]?).getD default) = (xs[i]?).getD default) :
    xs.modify i f = xs := by
  refine Array.ext (by simp) ?_
  intro j before after
  rw [Array.getElem_modify]
  split
  · next here =>
    subst here
    simpa [Array.getElem?_eq_getElem after] using same after
  · rfl

end Tables

variable (lib : Library)

section Classes

variable (c d : ClassId) (f : ClassDef → ClassDef) (e : ClassDef)

@[simp] theorem classes_size_modifyClass : (lib.modifyClass c f).classes.size = lib.classes.size := Array.size_modify

@[simp] theorem classes_size_pushClass : (lib.pushClass e).classes.size = lib.classes.size + 1 := Array.size_push e

theorem nextClass_lt : lib.nextClass.index < (lib.pushClass e).classes.size := by
  simp [nextClass]

theorem classOf_modifyClass_self (known : c.index < lib.classes.size) :
    (lib.modifyClass c f).classOf c = f (lib.classOf c) :=
  getD_modify_self lib.classes c.index f _ known

theorem classOf_modifyClass_ne (other : c ≠ d) : (lib.modifyClass c f).classOf d = lib.classOf d :=
  getD_modify_ne lib.classes c.index d.index f _ fun same => other (by cases c; cases d; simp_all)

theorem classOf_modifyClass_of {motive : ClassDef → Prop} (old : motive (lib.classOf d))
    (new : c = d → motive (f (lib.classOf d))) : motive ((lib.modifyClass c f).classOf d) :=
  getD_modify_of lib.classes _ _ _ _ old fun same _ => new (by cases c; cases same; rfl)

theorem exists_modifyClass (known : c.index < lib.classes.size) : ∃ next, lib.modifyClass c f = next ∧
    next.classOf c = f (lib.classOf c) ∧ (∀ x, c ≠ x → next.classOf x = lib.classOf x) ∧
    next.classes.size = lib.classes.size :=
  ⟨_, rfl, lib.classOf_modifyClass_self c f known, fun x => lib.classOf_modifyClass_ne c x f,
    lib.classes_size_modifyClass c f⟩

theorem classOf_pushClass_self : (lib.pushClass e).classOf lib.nextClass = e := getD_push_self lib.classes e _

theorem classOf_pushClass_ne (other : c.index ≠ lib.classes.size) : (lib.pushClass e).classOf c = lib.classOf c :=
  getD_push_ne lib.classes c.index e _ other

theorem modifyClass_eq_self (same : f (lib.classOf c) = lib.classOf c) : lib.modifyClass c f = lib := by
  unfold modifyClass
  rw [modify_eq_self lib.classes c.index f _ fun _ => same]

end Classes

section Symbols

variable (s t : SymbolId) (f : Symbol → Symbol) (e : Symbol)

@[simp] theorem symbols_size_modifySymbol : (lib.modifySymbol s f).symbols.size = lib.symbols.size := Array.size_modify

@[simp] theorem symbols_size_pushSymbol : (lib.pushSymbol e).symbols.size = lib.symbols.size + 1 := Array.size_push e

theorem nextSymbol_lt : lib.nextSymbol.index < (lib.pushSymbol e).symbols.size := by
  simp [nextSymbol]

theorem symbolOf_modifySymbol_self (known : s.index < lib.symbols.size) :
    (lib.modifySymbol s f).symbolOf s = f (lib.symbolOf s) :=
  getD_modify_self lib.symbols s.index f _ known

theorem symbolOf_modifySymbol_ne (other : s ≠ t) : (lib.modifySymbol s f).symbolOf t = lib.symbolOf t :=
  getD_modify_ne lib.symbols s.index t.index f _ fun same => other (by cases s; cases t; simp_all)

theorem symbolOf_modifySymbol_of {motive : Symbol → Prop} (old : motive (lib.symbolOf t))
    (new : s = t → motive (f (lib.symbolOf t))) : motive ((lib.modifySymbol s f).symbolOf t) :=
  getD_modify_of lib.symbols _ _ _ _ old fun same _ => new (by cases s; cases same; rfl)

theorem symbolOf_pushSymbol_self : (lib.pushSymbol e).symbolOf lib.nextSymbol = e := getD_push_self lib.symbols e _

theorem symbolOf_pushSymbol_ne (other : s.index ≠ lib.symbols.size) : (lib.pushSymbol e).symbolOf s = lib.symbolOf s :=
  getD_push_ne lib.symbols s.index e _ other

theorem modifySymbol_eq_self (same : f (lib.symbolOf s) = lib.symbolOf s) : lib.modifySymbol s f = lib := by
  unfold modifySymbol
  rw [modify_eq_self lib.symbols s.index f _ fun _ => same]

end Symbols

section Modifications

variable (m n : ModificationId) (f : List ArgumentId → List ArgumentId) (as : List ArgumentId)

@[simp] theorem modifications_size_modifyModification :
    (lib.modifyModification m f).modifications.size = lib.modifications.size := Array.size_modify

@[simp] theorem modifications_size_pushModification :
    (lib.pushModification as).modifications.size = lib.modifications.size + 1 :=
  Array.size_push _

theorem nextModification_lt : lib.nextModification.index < (lib.pushModification as).modifications.size := by
  simp [nextModification]

theorem modificationOf_modifyModification_self (known : m.index < lib.modifications.size) :
    (lib.modifyModification m f).modificationOf m = ⟨f (lib.modificationOf m).arguments⟩ :=
  getD_modify_self lib.modifications m.index (fun m => ⟨f m.arguments⟩) _ known

theorem modificationOf_modifyModification_ne (other : m ≠ n) :
    (lib.modifyModification m f).modificationOf n = lib.modificationOf n :=
  getD_modify_ne lib.modifications m.index n.index _ _ fun same => other (by cases m; cases n; simp_all)

theorem modificationOf_pushModification_self : (lib.pushModification as).modificationOf lib.nextModification = ⟨as⟩ :=
  getD_push_self lib.modifications _ _

theorem modificationOf_pushModification_ne (other : m.index ≠ lib.modifications.size) :
    (lib.pushModification as).modificationOf m = lib.modificationOf m :=
  getD_push_ne lib.modifications m.index _ _ other

theorem modifyModification_eq_self (same : f (lib.modificationOf m).arguments = (lib.modificationOf m).arguments) :
    lib.modifyModification m f = lib := by
  unfold modifyModification
  rw [modify_eq_self lib.modifications m.index (fun m => ⟨f m.arguments⟩) {} fun _ => congrArg Modification.mk same]

end Modifications

section Arguments

variable (a b : ArgumentId) (f : Argument → Argument) (e : Argument)

@[simp] theorem arguments_size_modifyArgument :
    (lib.modifyArgument a f).arguments.size = lib.arguments.size := Array.size_modify

@[simp] theorem arguments_size_pushArgument :
    (lib.pushArgument e).arguments.size = lib.arguments.size + 1 := Array.size_push e

theorem nextArgument_lt : lib.nextArgument.index < (lib.pushArgument e).arguments.size := by
  simp [nextArgument]

theorem argumentOf_modifyArgument_self (known : a.index < lib.arguments.size) :
    (lib.modifyArgument a f).argumentOf a = f (lib.argumentOf a) :=
  getD_modify_self lib.arguments a.index f _ known

theorem argumentOf_modifyArgument_ne (other : a ≠ b) : (lib.modifyArgument a f).argumentOf b = lib.argumentOf b :=
  getD_modify_ne lib.arguments a.index b.index f _ fun same => other (by cases a; cases b; simp_all)

theorem argumentOf_pushArgument_self : (lib.pushArgument e).argumentOf lib.nextArgument = e :=
  getD_push_self lib.arguments e _

theorem argumentOf_pushArgument_ne (other : a.index ≠ lib.arguments.size) :
    (lib.pushArgument e).argumentOf a = lib.argumentOf a :=
  getD_push_ne lib.arguments a.index e _ other

end Arguments

def Has (lib : Library) : Entry → Prop
  | .class_ c => c.index < lib.classes.size
  | .symbol s => s.index < lib.symbols.size
  | .modification m => m.index < lib.modifications.size
  | .argument a => a.index < lib.arguments.size

def listed (lib : Library) : List Entry :=
  (List.range lib.classes.size).map (.class_ ⟨·⟩) ++ (List.range lib.symbols.size).map (.symbol ⟨·⟩) ++
    (List.range lib.modifications.size).map (.modification ⟨·⟩) ++
    (List.range lib.arguments.size).map (.argument ⟨·⟩)

theorem mem_listed {lib : Library} {e : Entry} (has : lib.Has e) : e ∈ lib.listed := by
  cases e <;> simpa [listed] using ⟨_, has, rfl⟩

def SameAt (lib next : Library) : Entry → Prop
  | .class_ c => next.classOf c = lib.classOf c
  | .symbol s => next.symbolOf s = lib.symbolOf s
  | .modification m => next.modificationOf m = lib.modificationOf m
  | .argument a => next.argumentOf a = lib.argumentOf a

structure Touches (lib next : Library) (e : Entry) : Prop where
  has : ∀ x, lib.Has x → next.Has x
  same : ∀ x, lib.Has x → x ≠ e → lib.SameAt next x
  only : ∀ x, next.Has x → lib.Has x ∨ x = e

section Touches

variable {lib} {now next : Library} {e : Entry}

theorem Touches.added (has : ∀ x, next.Has x ↔ lib.Has x ∨ x = e)
    (same : ∀ x, lib.Has x → lib.SameAt next x) : lib.Touches next e :=
  ⟨fun x old => (has x).2 (.inl old), fun x old _ => same x old, fun x => (has x).1⟩

theorem Touches.changed (has : ∀ x, next.Has x ↔ lib.Has x)
    (same : ∀ x, x ≠ e → lib.SameAt next x) : lib.Touches next e :=
  ⟨fun x => (has x).2, fun x _ => same x, fun x there => .inl ((has x).1 there)⟩

variable (lib)

theorem touches_pushClass (d : ClassDef) : lib.Touches (lib.pushClass d) (.class_ lib.nextClass) := by
  refine .added (fun x => ?_) fun x has => ?_
  · rcases x with ⟨⟨_⟩⟩ | ⟨⟨_⟩⟩ | ⟨⟨_⟩⟩ | ⟨⟨_⟩⟩ <;>
      simp [Has, nextClass, pushClass]
    omega
  · cases x <;> first | rfl | exact classOf_pushClass_ne lib _ d has.ne

theorem touches_modifyClass (c : ClassId) (f : ClassDef → ClassDef) :
    lib.Touches (lib.modifyClass c f) (.class_ c) := by
  refine .changed (fun x => by cases x <;> simp [Has, modifyClass]) fun x other => ?_
  cases x <;> first | rfl | exact classOf_modifyClass_ne lib c _ f fun same => other (same ▸ rfl)

theorem touches_pushSymbol (d : Symbol) : lib.Touches (lib.pushSymbol d) (.symbol lib.nextSymbol) := by
  refine .added (fun x => ?_) fun x has => ?_
  · rcases x with ⟨⟨_⟩⟩ | ⟨⟨_⟩⟩ | ⟨⟨_⟩⟩ | ⟨⟨_⟩⟩ <;>
      simp [Has, nextSymbol, pushSymbol]
    omega
  · cases x <;> first | rfl | exact symbolOf_pushSymbol_ne lib _ d has.ne

theorem touches_modifySymbol (s : SymbolId) (f : Symbol → Symbol) : lib.Touches (lib.modifySymbol s f) (.symbol s) := by
  refine .changed (fun x => by cases x <;> simp [Has, modifySymbol]) fun x other => ?_
  cases x <;> first | rfl | exact symbolOf_modifySymbol_ne lib s _ f fun same => other (same ▸ rfl)

theorem touches_pushModification (as : List ArgumentId) :
    lib.Touches (lib.pushModification as) (.modification lib.nextModification) := by
  refine .added (fun x => ?_) fun x has => ?_
  · rcases x with ⟨⟨_⟩⟩ | ⟨⟨_⟩⟩ | ⟨⟨_⟩⟩ | ⟨⟨_⟩⟩ <;>
      simp [Has, nextModification, pushModification]
    omega
  · cases x <;> first | rfl | exact modificationOf_pushModification_ne lib _ as has.ne

theorem touches_modifyModification (m : ModificationId) (f : List ArgumentId → List ArgumentId) :
    lib.Touches (lib.modifyModification m f) (.modification m) := by
  refine .changed (fun x => by cases x <;> simp [Has, modifyModification]) fun x other => ?_
  cases x <;> first | rfl | exact modificationOf_modifyModification_ne lib m _ f fun same => other (same ▸ rfl)

theorem touches_pushArgument (d : Argument) : lib.Touches (lib.pushArgument d) (.argument lib.nextArgument) := by
  refine .added (fun x => ?_) fun x has => ?_
  · rcases x with ⟨⟨_⟩⟩ | ⟨⟨_⟩⟩ | ⟨⟨_⟩⟩ | ⟨⟨_⟩⟩ <;>
      simp [Has, nextArgument, pushArgument]
    omega
  · cases x <;> first | rfl | exact argumentOf_pushArgument_ne lib _ d has.ne

theorem touches_modifyArgument (a : ArgumentId) (f : Argument → Argument) :
    lib.Touches (lib.modifyArgument a f) (.argument a) := by
  refine .changed (fun x => by cases x <;> simp [Has, modifyArgument]) fun x other => ?_
  cases x <;> first | rfl | exact argumentOf_modifyArgument_ne lib a _ f fun same => other (same ▸ rfl)

variable {lib}

section

variable (touches : lib.Touches next e)
include touches

theorem Touches.moreClasses : lib.classes.size ≤ next.classes.size :=
  not_lt.1 fun less => lt_irrefl _ (touches.has (.class_ ⟨next.classes.size⟩) less)

theorem Touches.moreSymbols : lib.symbols.size ≤ next.symbols.size :=
  not_lt.1 fun less => lt_irrefl _ (touches.has (.symbol ⟨next.symbols.size⟩) less)

theorem Touches.moreModifications : lib.modifications.size ≤ next.modifications.size :=
  not_lt.1 fun less => lt_irrefl _ (touches.has (.modification ⟨next.modifications.size⟩) less)

theorem Touches.moreArguments : lib.arguments.size ≤ next.arguments.size :=
  not_lt.1 fun less => lt_irrefl _ (touches.has (.argument ⟨next.arguments.size⟩) less)

end

theorem Touches.old (touches : now.Touches next e) (new : ¬ lib.Has e) (x : Entry)
    (old : lib.Has x) (there : now.Has x) : now.SameAt next x := by
  refine touches.same x there ?_
  rintro rfl
  exact new old

end Touches

end Modelica.Library
