import Modelica.Proofs.Library.Mirrored

set_option autoImplicit false

namespace Modelica

namespace Library

open Outline

structure Mirror (lib next : Library) (R : Entry → Entry → Prop) : Prop where
  added : lib.Added next
  new : ∀ e x, R e x → ¬ lib.Has x
  alike : ∀ e x, R e x → (lib.outlineOf e).Alike R (next.outlineOf x)
  classes : ∀ e d, R e (.class_ d) → ∃ c, e = .class_ c
  originOf : ∀ c d, R (.class_ c) (.class_ d) → next.originOf d = c
  parent : ∀ c d, R (.class_ c) (.class_ d) → (next.classOf d).parent = (lib.classOf c).parent

namespace Mirror

variable {lib next : Library} {R : Entry → Entry → Prop} (mirror : lib.Mirror next R)

include mirror

theorem expand_eq (depth : Nat) (o o' : Outline) (alike : o.Alike R o') :
    expand next depth o' = expand lib depth o := by
  induction depth generalizing o o' with
  | zero => rfl
  | succ depth ih =>
    refine (alike_spec (fun e x related => ?_) o o' alike).1.symm
    exact (ih _ _ (mirror.alike e x related)).symm

theorem reaches_back {e x y : Entry} (related : R e x) (reached : next.Reaches x y) :
    ∃ e', lib.Reaches e e' ∧ R e' y := by
  induction reached with
  | refl => exact ⟨e, .refl, related⟩
  | tail _ leads ih =>
    obtain ⟨e', reached, related⟩ := ih
    obtain ⟨e'', listed, related'⟩ := exists_of_mem_entries _ _ (mirror.alike _ _ related) _ leads
    exact ⟨e'', reached.tail listed, related'⟩

end Mirror

end Library

theorem Copy.Working.mirror {lib next : Library} {around : List ClassId} {limit : Nat} {memo : Copy.Memo}
    (working : Copy.Working lib False [] around limit memo next) : lib.Mirror next (memo.Pairs lib False) := by
  have fresh : ∀ e x, memo.Pairs lib False e x → ¬ lib.Has x :=
    fun e x pair => (working.new e x pair).2.resolve_right fun no => no.1
  have plain : ∀ e x, memo.Pairs lib False e x → lib.sourceOf e = e :=
    fun e x pair => (working.plain e x pair).resolve_left id
  have origins : ∀ c d, memo.Pairs lib False (.class_ c) (.class_ d) → lib.originOf c = c :=
    fun c d pair => by simpa [Library.sourceOf] using plain _ _ pair
  refine ⟨working.added, fresh, fun e x pair => ?_, fun e d pair => ?_, fun c d pair => ?_, fun c d pair => ?_⟩
  · have alike := working.done e x pair (fresh e x pair) List.not_mem_nil memo (.refl memo)
    rwa [plain e x pair] at alike
  · cases e <;> first | exact ⟨_, rfl⟩ | exact pair.elim
  · exact (working.kept _ _ pair).1.trans (origins c d pair)
  · rw [((working.kept _ _ pair).2 (fresh _ _ pair)).parent, origins c d pair]

namespace Build

open Library Outline

theorem copyClass_mirror {lib : Library} {root c : ClassId} (tree : lib.Tree root)
    (inside : lib.Reaches (.class_ root) (.class_ c)) :
    (copyClass c).Returns lib fun n next => ∃ R, lib.Mirror next R ∧ R (.class_ c) (.class_ n) := by
  have turn : Copy.Turn lib (lib.Reaches (.class_ c)) False (lib.classOf c).parent.toList c := by
    refine ⟨.refl, .inr fun p member => .inr ?_, fun p has => .inr (by simp [has])⟩
    have parent : (lib.classOf c).parent = some p := by simpa using member
    obtain ⟨depth, deep⟩ := tree.exists_depth (tree.parent_reached inside parent) rfl
    exact ⟨depth + 1, depth, .inner parent deep, deep, Nat.lt_succ_self _⟩
  unfold copyClass Copy.fuelFor
  rw [Returns, bind_get, ensures_bind]
  have copied := (Copy.faithful (tree.region inside) (.inr (tree.written inside)) _).classes [] _
    lib.size c turn le_rfl {} lib (.empty lib _ _)
  refine copied.imp ?_
  rintro ⟨n, memo⟩ next ⟨working, -, right⟩
  exact (ensures_pure n).2 ⟨memo.Pairs lib False, working.mirror, right memo (.refl memo)⟩

-- The copy of a class of a tree has the same content at every depth and the same class around it, all that is
-- inside it is new, and nothing that was there changes. But the class around a class inside the copy is not the
-- class of the copy that contains it: it is the one that this class is a copy of.
theorem copyClass_reproduces (lib : Library) (root c : ClassId) (tree : lib.Tree root)
    (inside : lib.Reaches (.class_ root) (.class_ c)) :
    ∃ n next, copyClass c lib = .ok n next ∧
      (∀ depth, expand next depth (.entry (.class_ n)) = expand lib depth (.entry (.class_ c))) ∧
      (∀ e, next.Reaches (.class_ n) e → ¬ lib.Has e) ∧
      (next.classOf n).parent = (lib.classOf c).parent ∧
      (∀ d k, next.Reaches (.class_ n) (.class_ d) → next.Leads (.class_ d) (.class_ k) →
        (next.classOf k).parent = some (next.originOf d) ∧
          lib.Reaches (.class_ c) (.class_ (next.originOf d))) ∧
      lib.Added next := by
  obtain ⟨n, next, run, R, mirror, related⟩ := (copyClass_mirror tree inside).exists
  refine ⟨n, next, run, fun depth => ?_, fun e reached => ?_, mirror.parent c n related,
    fun d k reached leads => ?_, mirror.added⟩
  · exact mirror.expand_eq depth _ _ ((alike_entry R _ _).2 related)
  · obtain ⟨e', -, related'⟩ := mirror.reaches_back related reached
    exact mirror.new e' e related'
  · obtain ⟨e, inner, related⟩ := mirror.reaches_back related reached
    obtain ⟨x, part, related'⟩ := exists_of_mem_entries _ _ (mirror.alike _ _ related) _ leads
    obtain ⟨d', rfl⟩ := mirror.classes e d related
    obtain ⟨k', rfl⟩ := mirror.classes x k related'
    obtain ⟨_, same, parent⟩ := tree.around _ k' (inside.trans inner) part
    cases same
    rw [mirror.originOf d' d related, mirror.parent k' k related']
    exact ⟨parent, inner⟩

def nested : Library where
  classes := #[
    { classes := ⟨[(some "P", ⟨1⟩)]⟩, role := .root, origin := ⟨0⟩ },
    { name := some "P", classes := ⟨[(some "A", ⟨2⟩)]⟩, parent := some ⟨0⟩, origin := ⟨1⟩ },
    { name := some "A", symbols := ⟨[("x", ⟨0⟩)]⟩, parent := some ⟨1⟩, origin := ⟨2⟩ }]
  symbols := #[{ name := "x", type := .named (.simple "Real"), modification := some ⟨0⟩ }]
  modifications := #[⟨[⟨0⟩]⟩]
  arguments := #[{ value := .element (.simple "start") [.literal (.integer 3)], origin := ⟨0⟩ }]

theorem nested_reproduced : nested.Tree ⟨0⟩ ∧ nested.Reaches (.class_ ⟨0⟩) (.class_ ⟨1⟩) ∧
    ∃ n next, copyClass ⟨1⟩ nested = .ok n next ∧
      (∀ depth, expand next depth (.entry (.class_ n)) =
        expand nested depth (.entry (.class_ ⟨1⟩))) ∧
      (∀ e, next.Reaches (.class_ n) e → ¬ nested.Has e) ∧
      (next.classOf n).parent = (nested.classOf ⟨1⟩).parent ∧
      (∀ d k, next.Reaches (.class_ n) (.class_ d) → next.Leads (.class_ d) (.class_ k) →
        (next.classOf k).parent = some (next.originOf d) ∧
          nested.Reaches (.class_ ⟨1⟩) (.class_ (next.originOf d))) ∧
      nested.Added next := by
  have tree : nested.Tree ⟨0⟩ := by
    refine tree_of_isTree [.class_ ⟨0⟩, .class_ ⟨1⟩, .class_ ⟨2⟩, .symbol ⟨0⟩, .modification ⟨0⟩,
      .argument ⟨0⟩] ?_
    decide
  have inside : nested.Reaches (.class_ ⟨0⟩) (.class_ ⟨1⟩) := .single (by decide)
  exact ⟨tree, inside, copyClass_reproduces nested ⟨0⟩ ⟨1⟩ tree inside⟩

-- The root is copied with the package in it, but around the copy of the package is the old root: what is not
-- found in the package is looked up there, outside the copy.
theorem nested_copy_leaves : ∃ n next, copyClass ⟨0⟩ nested = .ok n next ∧
    ∃ k ∈ (next.classOf n).classes.values, (next.classOf k).parent = some ⟨0⟩ ∧ n ≠ ⟨0⟩ := by
  obtain ⟨n, next, run, found⟩ := exists_of_passes (copyClass ⟨0⟩) nested
    (fun n next => decide (∃ k ∈ (next.classOf n).classes.values,
      (next.classOf k).parent = some ⟨0⟩ ∧ n ≠ ⟨0⟩)) (by decide +kernel)
  exact ⟨n, next, run, of_decide_eq_true found⟩

end Build

end Modelica
