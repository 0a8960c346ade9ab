import Modelica.Library.Flat
import Modelica.Proofs.Library.Entries

set_option autoImplicit false

namespace Modelica

def Argument.sets? (a : Argument) : Option (Attribute × Expr) :=
  match a.value with
  | .element r (e :: _) => (Attribute.ofName? r.name).map fun attribute_ => (attribute_, e)
  | _ => none

namespace Symbol

def apply (d : Symbol) (a : Argument) : Symbol :=
  match a.sets? with
  | some (attribute_, e) => d.setAttr attribute_ e
  | none => d

end Symbol

namespace Library

def modifiersOf (lib : Library) (s : SymbolId) : List ArgumentId :=
  match (lib.symbolOf s).modification with
  | some m => (lib.modificationOf m).arguments
  | none => []

theorem modifiersOf_of_some {lib : Library} {s : SymbolId} {m : ModificationId}
    (has : (lib.symbolOf s).modification = some m) : lib.modifiersOf s = (lib.modificationOf m).arguments := by
  simp only [modifiersOf, has]

def applies (lib : Library) (scope : ClassId) (a : Argument) : Bool :=
  match a.scope with
  | none => true
  | some written => lib.path written = lib.path scope

end Library

namespace Build

open Library

structure Untouched (s : SymbolId) (m : ModificationId) (lib next : Library) : Prop where
  classes : next.classes = lib.classes
  arguments : next.arguments = lib.arguments
  size : next.symbols.size = lib.symbols.size
  sizes : next.modifications.size = lib.modifications.size
  symbols : ∀ t, t ≠ s → next.symbolOf t = lib.symbolOf t
  modifications : ∀ n, n ≠ m → next.modificationOf n = lib.modificationOf n

namespace Untouched

variable {s : SymbolId} {m : ModificationId} {lib now next : Library}

theorem refl (s : SymbolId) (m : ModificationId) (lib : Library) : Untouched s m lib lib :=
  ⟨rfl, rfl, rfl, rfl, fun _ _ => rfl, fun _ _ => rfl⟩

theorem trans (first : Untouched s m lib now) (second : Untouched s m now next) : Untouched s m lib next where
  classes := second.classes.trans first.classes
  arguments := second.arguments.trans first.arguments
  size := second.size.trans first.size
  sizes := second.sizes.trans first.sizes
  symbols t other := (second.symbols t other).trans (first.symbols t other)
  modifications n other := (second.modifications n other).trans (first.modifications n other)

theorem modifySymbol (lib : Library) (f : Symbol → Symbol) : Untouched s m lib (lib.modifySymbol s f) :=
  ⟨rfl, rfl, symbols_size_modifySymbol lib s f, rfl,
    fun t other => symbolOf_modifySymbol_ne lib s t f other.symm, fun _ _ => rfl⟩

theorem modifyModification (lib : Library) (f : List ArgumentId → List ArgumentId) :
    Untouched s m lib (lib.modifyModification m f) :=
  ⟨rfl, rfl, rfl, modifications_size_modifyModification lib m f, fun _ _ => rfl,
    fun n other => modificationOf_modifyModification_ne lib m n f other.symm⟩

theorem argumentOf (untouched : Untouched s m lib next) (a : ArgumentId) : next.argumentOf a = lib.argumentOf a := by
  unfold Library.argumentOf
  rw [untouched.arguments]

theorem applies (untouched : Untouched s m lib next) (scope : ClassId) (a : Argument) :
    next.applies scope a = lib.applies scope a := by
  have same : next.path = lib.path := by
    have classOf : next.classOf = lib.classOf := by
      funext c
      unfold Library.classOf
      rw [untouched.classes]
    have chain : ∀ n c, next.chain n c = lib.chain n c := by
      intro n
      induction n with
      | zero => exact fun _ => rfl
      | succ n ih =>
        intro c
        unfold Library.chain
        rw [classOf]
        cases (lib.classOf c).parent with
        | none => rfl
        | some p => exact congrArg _ (ih p)
    funext c
    unfold Library.path Library.enclosing
    rw [chain, classOf, untouched.classes]
  unfold Library.applies
  rw [same]

end Untouched

variable {lib : Library} {s : SymbolId} {m : ModificationId} {r : ComponentRef}

-- Each argument applies in one of the classes, and one that applies in a later class only stands behind those
-- that apply in an earlier one.
structure Ordered (lib : Library) (scopes : List ClassId) (as : List Argument) : Prop where
  somewhere : ∀ a ∈ as, ∃ scope ∈ scopes, lib.applies scope a = true
  order : (as.map fun a => scopes.findIdx (lib.applies · a)).Pairwise (· ≤ ·)

namespace Ordered

variable {lib : Library} {scope : ClassId} {scopes : List ClassId} {as : List Argument}

theorem front (ordered : Ordered lib (scope :: scopes) as) :
    as = as.filter (lib.applies scope) ++ as.filter fun a => !lib.applies scope a := by
  have order := ordered.order
  clear ordered
  induction as with
  | nil => rfl
  | cons a as ih =>
    rw [List.map_cons, List.pairwise_cons] at order
    by_cases first : lib.applies scope a = true
    · rw [List.filter_cons_of_pos first, List.filter_cons_of_neg (by simp [first])]
      exact congrArg (a :: ·) (ih order.2)
    · have none : ∀ b ∈ as, lib.applies scope b = false := by
        intro b member
        refine Bool.eq_false_iff.2 fun applied => ?_
        have least := order.1 _ (List.mem_map_of_mem member)
        simp [List.findIdx_cons, first, applied] at least
      rw [List.filter_cons_of_neg first, List.filter_cons_of_pos (by simp [first]),
        List.filter_eq_nil_iff.2 (by simpa using none), List.filter_eq_self.2 (by simpa using none)]
      rfl

theorem rest (ordered : Ordered lib (scope :: scopes) as) :
    Ordered lib scopes (as.filter fun a => !lib.applies scope a) := by
  refine ⟨fun a member => ?_, ?_⟩
  · obtain ⟨listed, other⟩ := List.mem_filter.1 member
    obtain ⟨here, place, applied⟩ := ordered.somewhere a listed
    obtain rfl | later := List.mem_cons.1 place
    · simp [applied] at other
    · exact ⟨here, later, applied⟩
  · have less := List.Pairwise.sublist ((List.filter_sublist (p := fun a => !lib.applies scope a)).map _) ordered.order
    rw [List.pairwise_map] at less ⊢
    refine less.imp_of_mem fun first second le => ?_
    have shifts : ∀ {a}, a ∈ as.filter (fun a => !lib.applies scope a) →
        (scope :: scopes).findIdx (lib.applies · a) = scopes.findIdx (lib.applies · a) + 1 := by
      intro a member
      have other := (List.mem_filter.1 member).2
      simp only [Bool.not_eq_true'] at other
      simp [List.findIdx_cons, other]
    rw [shifts first, shifts second] at le
    exact Nat.le_of_succ_le_succ le

theorem congr {next : Library} (ordered : Ordered lib scopes as)
    (same : ∀ scope a, next.applies scope a = lib.applies scope a) : Ordered next scopes as := by
  obtain ⟨somewhere, order⟩ := ordered
  simp only [← same] at somewhere order
  exact ⟨somewhere, order⟩

end Ordered

end Build

end Modelica
