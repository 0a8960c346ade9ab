import Modelica.Proofs.Library.Steady

set_option autoImplicit false

namespace Modelica

inductive Moved (ok : String → Bool) (lib : Library) (old new : Symbol) : Prop
  | same : new.type = old.type → new.connectorType = old.connectorType → Moved ok lib old new
  | value (c : ClassId) (r : ComponentRef) : old.type = .instance_ c →
      (c.index < lib.classes.size → (lib.classOf c).type = "__builtin") → new.type = .named r →
      ok r.name = true → new.connectorType = old.connectorType → Moved ok lib old new
  | socket (c : ClassId) (name : Option String) : old.type = .instance_ c →
      (c.index < lib.classes.size → (lib.classOf c).type = "connector") →
      new.type = .connector name → Moved ok lib old new

namespace Library

structure Unmoved (ok : String → Bool) (renamed : SymbolId → Prop) (lib next : Library) : Prop extends
    Steady renamed lib next where
  moved : ∀ s, s.index < lib.symbols.size → Moved ok lib (lib.symbolOf s) (next.symbolOf s)
  dimensions : ∀ s, s.index < lib.symbols.size →
    (next.symbolOf s).dimensions = (lib.symbolOf s).dimensions

variable {ok : String → Bool} {renamed more : SymbolId → Prop} {lib now next : Library}

theorem Moved.of_skeleton {old new : Symbol} (same : new.skeleton = old.skeleton) : Moved ok lib old new :=
  .same (congrArg Skeleton.type same) (congrArg Skeleton.connectorType same)

theorem Steady.unmoved (steady : lib.Steady never next) : Unmoved ok renamed lib next where
  __ := steady.weaken fun _ _ no => no.elim
  moved s known := Moved.of_skeleton (steady.symbolOf s known id)
  dimensions s known := congrArg Skeleton.dimensions (steady.symbolOf s known id)

namespace Unmoved

theorem refl (lib : Library) : Unmoved ok renamed lib lib := (Steady.refl _ lib).unmoved

theorem name (unmoved : Unmoved ok renamed lib next) (s : SymbolId) (known : s.In lib)
    (apart : ¬ renamed s) : (next.symbolOf s).name = (lib.symbolOf s).name :=
  congrArg Skeleton.name (unmoved.symbolOf s known apart)

theorem weaken (unmoved : Unmoved ok renamed lib next)
    (within : ∀ s, s.In lib → renamed s → more s) : Unmoved ok more lib next :=
  ⟨unmoved.toSteady.weaken within, unmoved.moved, unmoved.dimensions⟩

theorem trans (first : Unmoved ok renamed lib now) (second : Unmoved ok renamed now next) :
    Unmoved ok renamed lib next where
  __ := first.toSteady.trans second.toSteady
  moved s known := by
    have later := second.moved s (known.trans_le first.moreSymbols)
    -- a component that has taken a value or has been taken apart stays as it is
    cases first.moved s known with
    | same type connected =>
      have class_ : ∀ (c : ClassId) (kind : String), (c.In now → (now.classOf c).type = kind) →
          c.In lib → (lib.classOf c).type = kind := by
        intro c kind holds known
        rw [← first.classOf c known]
        exact holds (known.trans_le first.moreClasses)
      cases later with
      | same type' connected' => exact .same (type'.trans type) (connected'.trans connected)
      | value c r old builtin new holds connected' =>
        exact .value c r (type.symm.trans old) (class_ c _ builtin) new holds (connected'.trans connected)
      | socket c name old connector new =>
        exact .socket c name (type.symm.trans old) (class_ c _ connector) new
    | value c r old builtin new holds connected =>
      cases later with
      | same type' connected' =>
        exact .value c r old builtin (type'.trans new) holds (connected'.trans connected)
      | value _ _ old' | socket _ _ old' => rw [new] at old'; contradiction
    | socket c name old connector new =>
      cases later with
      | same type' _ => exact .socket c name old connector (type'.trans new)
      | value _ _ old' | socket _ _ old' => rw [new] at old'; contradiction
  dimensions s known := by
    rw [second.dimensions s (known.trans_le first.moreSymbols), first.dimensions s known]

theorem modifySymbol (lib : Library) (s : SymbolId) (f : Symbol → Symbol)
    (moved : Moved ok lib (lib.symbolOf s) (f (lib.symbolOf s)))
    (dimensions : (f (lib.symbolOf s)).dimensions = (lib.symbolOf s).dimensions)
    (allowed : renamed s ∨ ∀ d, (f d).skeleton = d.skeleton) : Unmoved ok renamed lib (lib.modifySymbol s f) := by
  refine ⟨(Steady.refl _ lib).modifySymbol s f allowed,
    fun t _ => symbolOf_modifySymbol_of _ _ _ _ (.same rfl rfl) ?_,
    fun t _ => symbolOf_modifySymbol_of _ _ _ _ (motive := (·.dimensions = _)) rfl ?_⟩
  · rintro rfl
    exact moved
  · rintro rfl
    exact dimensions

section

variable (unmoved : Unmoved ok renamed lib now)
include unmoved

theorem touch {e : Entry} (touches : now.Touches next e) (new : ¬ lib.Has e) : Unmoved ok renamed lib next := by
  have other : ∀ s : SymbolId, s.In lib → next.symbolOf s = now.symbolOf s :=
    fun s known => touches.old new (.symbol s) known (known.trans_le unmoved.moreSymbols)
  refine ⟨unmoved.toSteady.touch touches new, fun t known => ?_, fun t known => ?_⟩
  · rw [other t known]
    exact unmoved.moved t known
  · rw [other t known, unmoved.dimensions t known]

theorem modifyNew (s : SymbolId) (new : s.New lib) (f : Symbol → Symbol) :
    Unmoved ok renamed lib (now.modifySymbol s f) :=
  unmoved.touch (now.touches_modifySymbol s f) (not_lt.2 new)

theorem pushClass (d : ClassDef) : Unmoved ok renamed lib (now.pushClass d) :=
  unmoved.touch (now.touches_pushClass d) (not_lt.2 unmoved.moreClasses)

theorem modifyClass (c : ClassId) (new : c.New lib) (f : ClassDef → ClassDef) :
    Unmoved ok renamed lib (now.modifyClass c f) :=
  unmoved.touch (now.touches_modifyClass c f) (not_lt.2 new)

end

end Unmoved

end Library

end Modelica
