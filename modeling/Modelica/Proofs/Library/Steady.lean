import Modelica.Proofs.Expr.Mapping
import Modelica.Proofs.Library.Light
import Modelica.Proofs.Library.Reach

set_option autoImplicit false

namespace Modelica

structure Skeleton where
  name : String
  type : SymbolType
  dimensions : List (List Expr)
  connectorType : Option ClassId

def Symbol.skeleton (s : Symbol) : Skeleton := ⟨s.name, s.type, s.dimensions, s.connectorType⟩

theorem Symbol.skeleton_setAttr (s : Symbol) (a : Attribute) (e : Expr) : (s.setAttr a e).skeleton = s.skeleton := by
  cases a <;> rfl

theorem Symbol.light_setAttr {ok : String → Bool} (s : Symbol) (a : Attribute) (e : Expr)
    (light : s.light ok = true) (new : e.light ok = true) : (s.setAttr a e).light ok = true := by
  rw [Symbol.light_iff] at light ⊢
  refine ⟨?_, ?_, fun b => ?_⟩
  · cases a <;> exact light.1
  · cases a <;> exact light.2.1
  · have old := light.2.2 b
    cases a <;> cases b <;> first | exact new | exact old

namespace Library

structure Steady (touched : SymbolId → Prop) (lib next : Library) : Prop where
  moreClasses : lib.classes.size ≤ next.classes.size
  moreSymbols : lib.symbols.size ≤ next.symbols.size
  classOf : ∀ c, c.index < lib.classes.size → next.classOf c = lib.classOf c
  symbolOf : ∀ s, s.index < lib.symbols.size → ¬ touched s →
    (next.symbolOf s).skeleton = (lib.symbolOf s).skeleton

namespace Steady

variable {touched more : SymbolId → Prop} {lib now next : Library}

theorem refl (touched : SymbolId → Prop) (lib : Library) : lib.Steady touched lib :=
  ⟨le_rfl, le_rfl, fun _ _ => rfl, fun _ _ _ => rfl⟩

theorem of_eq (classes : next.classes = lib.classes) (symbols : next.symbols = lib.symbols) :
    Steady touched lib next := by
  refine ⟨Nat.le_of_eq (by rw [classes]), Nat.le_of_eq (by rw [symbols]), fun c _ => ?_, fun s _ _ => ?_⟩
  · rw [Library.classOf, Library.classOf, classes]
  · rw [Library.symbolOf, Library.symbolOf, symbols]

theorem thenLater (first : Steady touched lib now) (second : Steady more now next)
    (later : ∀ s, s.In lib → more s → touched s) : Steady touched lib next where
  moreClasses := first.moreClasses.trans second.moreClasses
  moreSymbols := first.moreSymbols.trans second.moreSymbols
  classOf c known := by
    rw [second.classOf c (known.trans_le first.moreClasses), first.classOf c known]
  symbolOf s known apart := by
    rw [second.symbolOf s (known.trans_le first.moreSymbols)
      fun touches => apart (later s known touches), first.symbolOf s known apart]

theorem trans (first : Steady touched lib now) (second : Steady touched now next) :
    Steady touched lib next := first.thenLater second fun _ _ => id

theorem weaken (steady : Steady touched lib next)
    (within : ∀ s, s.In lib → touched s → more s) : Steady more lib next :=
  { steady with
    symbolOf := fun s known apart => steady.symbolOf s known fun touches => apart (within s known touches) }

section

variable (steady : Steady touched lib now)
include steady

theorem modifyModification (m : ModificationId) (f : List ArgumentId → List ArgumentId) :
    Steady touched lib (now.modifyModification m f) :=
  { steady with }

theorem modifySymbol (s : SymbolId) (f : Symbol → Symbol) (allowed : touched s ∨ ∀ d, (f d).skeleton = d.skeleton) :
    Steady touched lib (now.modifySymbol s f) where
  __ := steady
  moreSymbols := by simpa using steady.moreSymbols
  symbolOf t known apart := by
    have before := steady.symbolOf t known apart
    refine symbolOf_modifySymbol_of _ _ _ _ (motive := (·.skeleton = _)) before ?_
    rintro rfl
    exact (allowed.resolve_left apart _).trans before

theorem touch {e : Entry} (touches : now.Touches next e) (new : ¬ lib.Has e) : Steady touched lib next where
  moreClasses := steady.moreClasses.trans touches.moreClasses
  moreSymbols := steady.moreSymbols.trans touches.moreSymbols
  classOf c known :=
    Eq.trans (touches.old new (.class_ c) known (known.trans_le steady.moreClasses)) (steady.classOf c known)
  symbolOf s known apart := by
    have there := known.trans_le steady.moreSymbols
    rw [show next.symbolOf s = now.symbolOf s from touches.old new (.symbol s) known there]
    exact steady.symbolOf s known apart

theorem modifyNew (s : SymbolId) (new : s.New lib) (f : Symbol → Symbol) :
    Steady touched lib (now.modifySymbol s f) :=
  steady.touch (now.touches_modifySymbol s f) (not_lt.2 new)

theorem pushSymbol (d : Symbol) : Steady touched lib (now.pushSymbol d) :=
  steady.touch (now.touches_pushSymbol d) (not_lt.2 steady.moreSymbols)

theorem pushClass (d : ClassDef) : Steady touched lib (now.pushClass d) :=
  steady.touch (now.touches_pushClass d) (not_lt.2 steady.moreClasses)

theorem modifyClass (c : ClassId) (new : c.New lib) (f : ClassDef → ClassDef) :
    Steady touched lib (now.modifyClass c f) :=
  steady.touch (now.touches_modifyClass c f) (not_lt.2 new)

end

end Steady

theorem steady_modifySymbol (lib : Library) (s : SymbolId) (f : Symbol → Symbol) :
    lib.Steady (· = s) (lib.modifySymbol s f) := (Steady.refl _ lib).modifySymbol s f (.inl rfl)

end Library

namespace Build

open Library

variable {α β : Type}

def Undisturbed (ok : String → Bool) (lib next : Library) : Prop :=
  lib.Light ok → lib.Steady (fun _ => False) next ∧ next.Light ok

abbrev Calm (ok : String → Bool) (x : Build α) : Prop := Respects (Undisturbed ok) x

section Calm

variable {ok : String → Bool} {x : Build α}

theorem calm : Passing (Undisturbed ok) where
  refl lib light := ⟨.refl _ lib, light⟩
  trans first second light :=
    have ⟨steady, light⟩ := first light
    (second light).imp_left steady.trans

theorem calm_iff : Calm ok x ↔ ∀ lib, lib.Light ok →
    x.Ensures lib (fun _ next => lib.Steady never next ∧ next.Light ok) anyhow := by
  refine ⟨fun calm lib light => (calm lib).imp fun _ _ is => is light, fun each lib => ?_⟩
  by_cases light : lib.Light ok
  · exact (each lib light).imp fun _ _ is _ => is
  · exact .of_forall fun _ _ given => absurd given light

theorem calm_updateModification (m : ModificationId) (f : List ArgumentId → List ArgumentId) :
    Calm ok (updateModification m f) := fun lib =>
  (ensures_updateModification m f).2 fun light =>
    ⟨(Steady.refl _ lib).modifyModification m f, light.modifyModification m f⟩

theorem calm_updateSymbol (s : SymbolId) (f : Symbol → Symbol)
    (same : ∀ d, (f d).skeleton = d.skeleton) (light : ∀ d, d.light ok = true → (f d).light ok = true) :
    Calm ok (updateSymbol s f) := fun lib =>
  (ensures_updateSymbol s f).2 fun given => ⟨(Steady.refl _ lib).modifySymbol s f (.inr same),
    given.modifySymbol s f (light _ (given.symbols s))⟩

theorem calm_placeOf (c : ClassId) : Calm ok (placeOf c) := by
  refine calm.andThen calm.seen fun lib => ?_
  extract_lets path rest
  split
  · exact calm.andThen (respects_throw _) fun _ => calm.returned _
  · exact calm.returned _

theorem calm_appliesIn (scope : ClassId) (a : ArgumentId) : Calm ok (appliesIn scope a) := by
  refine calm.andThen (calm.argumentOf a) fun d => ?_
  split
  · exact calm.returned _
  · exact calm.andThen (calm_placeOf _) fun _ => calm.andThen (calm_placeOf _) fun _ => calm.returned _

theorem calm_applyArgument (s : SymbolId) (a : ArgumentId) : Calm ok (applyArgument s a) := by
  refine calm_iff.2 fun lib light => ?_
  have new := light.arguments a
  rw [applyArgument, bind_argumentOf]
  split
  · next r changes has =>
    rw [has, ArgumentValue.light_element, Expr.allLight_iff] at new
    split
    · exact .throw
    · split
      · exact .throw
      · next attribute_ e rest =>
        have first := new.2 e List.mem_cons_self
        exact calm_iff.1 (calm_updateSymbol s _ (fun d => d.skeleton_setAttr _ _)
          fun d light => d.light_setAttr _ _ light first) lib light
  · exact .throw

theorem calm_applyModification (scope : ClassId) (s : SymbolId) (m : ModificationId) :
    Calm ok (applyModification scope s m) := by
  refine calm.andThen (calm.argumentsOf m) fun all => ?_
  refine calm.andThen (calm.loop _ _ _ fun a parts => ?_) fun parts => ?_
  · refine calm.andThen (calm_appliesIn scope a) fun applies => ?_
    split <;> exact calm.returned _
  · refine calm.andThen (calm.loop _ _ _ fun a _ => ?_) fun _ => calm_updateModification m _
    exact calm.andThen (calm_applyArgument s a) fun _ => calm.returned _

theorem calm_settleSymbol (scope : ClassId) (s : SymbolId) : Calm ok (settleSymbol scope s) := by
  refine calm.andThen (calm.symbolOf s) fun d => ?_
  split
  · exact calm.returned _
  · next m _ _ =>
    refine calm.andThen (calm.argumentsOf m) fun as => ?_
    extract_lets rest
    have finish : ∀ u, Calm ok (rest u) := by
      intro u
      refine calm.andThen (calm.argumentsOf m) fun as => ?_
      split
      · exact calm_updateSymbol s _ (fun _ => rfl) fun _ => id
      · exact calm.returned _
    split
    · exact finish ()
    · exact calm.andThen (calm_applyModification scope s m) finish
  · exact respects_throw _

theorem calm_settle (flat scope : ClassId) : Calm ok (settle flat scope) := by
  refine calm.andThen calm.seen fun lib => ?_
  refine calm.andThen (calm.loop _ _ _ fun e _ => ?_) fun _ => calm.returned _
  split
  · exact calm.andThen (calm_settleSymbol scope _) fun _ => calm.returned _
  · next c =>
    refine calm.andThen (calm.classOf c) fun d => ?_
    split
    · next m _ =>
      refine calm.andThen (calm.argumentsOf m) fun as => ?_
      split
      · exact calm.returned _
      · exact calm.andThen (respects_throw _) fun _ => calm.returned _
    · exact calm.returned _
  · exact calm.returned _

end Calm

end Build

end Modelica
