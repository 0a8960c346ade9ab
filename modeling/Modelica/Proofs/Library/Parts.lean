import Mathlib.Logic.Relation
import Modelica.Proofs.Library.Origins
import Modelica.Proofs.Outline.Alike

set_option autoImplicit false

namespace Modelica

namespace Library

variable {lib now next : Library} {e : Entry}

theorem SameAt.trans (first : lib.SameAt now e) (second : now.SameAt next e) : lib.SameAt next e := by
  cases e <;> exact Eq.trans second first

theorem SameAt.outlineOf (same : lib.SameAt next e) : next.outlineOf e = lib.outlineOf e := by
  cases e with
  | class_ c => exact congrArg ClassDef.outline same
  | symbol s => exact congrArg Symbol.outline same
  | modification m => exact congrArg Modification.outline same
  | argument a => exact congrArg Argument.outline same

theorem Touches.trans (first : lib.Touches now e) (second : now.Touches next e) : lib.Touches next e where
  has x has := second.has x (first.has x has)
  same x has other := (first.same x has other).trans (second.same x (first.has x has) other)
  only x has := (second.only x has).elim (first.only x) .inr

def Added (lib next : Library) : Prop := ∀ x, lib.Has x → next.Has x ∧ lib.SameAt next x

theorem Added.refl (lib : Library) : lib.Added lib := fun x has => ⟨has, by cases x <;> rfl⟩

theorem Added.touch (added : lib.Added now) (touches : now.Touches next e) (new : ¬ lib.Has e) : lib.Added next := by
  intro x has
  obtain ⟨there, same⟩ := added x has
  refine ⟨touches.has x there, same.trans (touches.same x there ?_)⟩
  rintro rfl
  exact new has

theorem modifyArgument_eq_self (lib : Library) (a : ArgumentId) (f : Argument → Argument)
    (same : f (lib.argumentOf a) = lib.argumentOf a) : lib.modifyArgument a f = lib := by
  unfold modifyArgument
  rw [modify_eq_self lib.arguments a.index f _ fun _ => same]

def Leads (lib : Library) (e x : Entry) : Prop := x ∈ (lib.outlineOf e).entries

instance (lib : Library) (e x : Entry) : Decidable (lib.Leads e x) :=
  inferInstanceAs (Decidable (x ∈ _))

def Reaches (lib : Library) : Entry → Entry → Prop := Relation.ReflTransGen lib.Leads

inductive Depth (lib : Library) : ClassId → Nat → Prop
  | top {c : ClassId} : (lib.classOf c).parent = none → Depth lib c 0
  | inner {c p : ClassId} {n : Nat} : (lib.classOf c).parent = some p → Depth lib p n →
      Depth lib c (n + 1)

theorem Depth.unique {c : ClassId} {n k : Nat} (first : lib.Depth c n) (second : lib.Depth c k) : n = k := by
  induction first generalizing k with
  | top none =>
    cases second with
    | top => rfl
    | inner some => simp [none] at some
  | inner has _ ih =>
    cases second with
    | top none => simp [none] at has
    | inner has' deeper =>
      rw [has] at has'
      cases has'
      rw [ih deeper]

def sourceOf (lib : Library) : Entry → Entry
  | .class_ c => .class_ (lib.originOf c)
  | .argument a => .argument (lib.argumentOf a).origin
  | e => e

structure Written (lib : Library) (inside : Entry → Prop) : Prop where
  source : ∀ e, inside e → lib.sourceOf e = e
  around : ∀ e c, inside e → lib.Leads e (.class_ c) →
    ∃ d, e = .class_ d ∧ (lib.classOf c).parent = some d
  depth : ∀ c, inside (.class_ c) → ∃ n, lib.Depth c n

structure Region (lib : Library) (inside : Entry → Prop) : Prop where
  has : ∀ e, inside e → lib.Has e
  closed : ∀ e x, inside e → lib.Leads e x → inside x
  source : ∀ e, inside e → inside (lib.sourceOf e)
  settled : ∀ e, inside e → lib.sourceOf (lib.sourceOf e) = lib.sourceOf e
  parent : ∀ c p, inside (.class_ c) → (lib.classOf c).parent = some p → lib.Has (.class_ p)
  imports : ∀ c, inside (.class_ c) → ∀ i ∈ (lib.classOf c).imports, i.component.bare = true
  bases : ∀ c, inside (.class_ c) → ∀ e ∈ (lib.classOf c).extends_, e.component.bare = true

-- A tree of classes as it is written: it holds no copies, and a class is part of nothing but the class around
-- it.
structure Tree (lib : Library) (root : ClassId) : Prop where
  top : (lib.classOf root).parent = none
  has : ∀ e, lib.Reaches (.class_ root) e → lib.Has e
  around : ∀ e c, lib.Reaches (.class_ root) e → lib.Leads e (.class_ c) →
    ∃ d, e = .class_ d ∧ (lib.classOf c).parent = some d
  originOf : ∀ c, lib.Reaches (.class_ root) (.class_ c) → lib.originOf c = c
  origin : ∀ a, lib.Reaches (.class_ root) (.argument a) → (lib.argumentOf a).origin = a
  imports : ∀ c, lib.Reaches (.class_ root) (.class_ c) →
    ∀ i ∈ (lib.classOf c).imports, i.component.bare = true
  bases : ∀ c, lib.Reaches (.class_ root) (.class_ c) →
    ∀ e ∈ (lib.classOf c).extends_, e.component.bare = true

namespace Tree

variable {lib : Library} {root c : ClassId} (tree : lib.Tree root)

include tree

theorem parent_reached (reached : lib.Reaches (.class_ root) (.class_ c)) {p : ClassId}
    (parent : (lib.classOf c).parent = some p) : lib.Reaches (.class_ root) (.class_ p) := by
  obtain same | ⟨e, before, leads⟩ := Relation.ReflTransGen.cases_tail reached
  · cases same
    rw [tree.top] at parent
    cases parent
  · obtain ⟨d, rfl, around⟩ := tree.around e c before leads
    rw [parent] at around
    cases around
    exact before

variable {e part : Entry}

theorem exists_depth (reached : lib.Reaches (.class_ root) e) {c : ClassId} (same : e = .class_ c) :
    ∃ n, lib.Depth c n := by
  induction reached generalizing c with
  | refl =>
    cases same
    exact ⟨0, .top tree.top⟩
  | tail before leads ih =>
    subst same
    obtain ⟨d, rfl, around⟩ := tree.around _ c before leads
    obtain ⟨n, deep⟩ := ih rfl
    exact ⟨n + 1, .inner around deep⟩

theorem sourceOf (reached : lib.Reaches (.class_ root) e) : lib.sourceOf e = e := by
  cases e with
  | class_ c => exact congrArg Entry.class_ (tree.originOf c reached)
  | argument a => exact congrArg Entry.argument (tree.origin a reached)
  | symbol _ | modification _ => rfl

theorem written (inside : lib.Reaches (.class_ root) part) : lib.Written (lib.Reaches part) where
  source _ reached := tree.sourceOf (inside.trans reached)
  around e d reached leads := tree.around e d (inside.trans reached) leads
  depth _ reached := tree.exists_depth (inside.trans reached) rfl

theorem region (inside : lib.Reaches (.class_ root) part) : lib.Region (lib.Reaches part) where
  has e reached := tree.has e (inside.trans reached)
  closed _ _ reached leads := reached.tail leads
  source e reached := (tree.sourceOf (inside.trans reached)).symm ▸ reached
  settled e reached := by rw [tree.sourceOf (inside.trans reached), tree.sourceOf (inside.trans reached)]
  parent d p reached parent := tree.has _ (tree.parent_reached (inside.trans reached) parent)
  imports d reached := tree.imports d (inside.trans reached)
  bases d reached := tree.bases d (inside.trans reached)

end Tree

instance (lib : Library) : DecidablePred lib.Has
  | .class_ c => inferInstanceAs (Decidable (c.index < lib.classes.size))
  | .symbol s => inferInstanceAs (Decidable (s.index < lib.symbols.size))
  | .modification m => inferInstanceAs (Decidable (m.index < lib.modifications.size))
  | .argument a => inferInstanceAs (Decidable (a.index < lib.arguments.size))

def fits (lib : Library) : Entry → Bool
  | .class_ c =>
    lib.originOf c = c && (lib.classOf c).imports.all (·.component.bare) &&
      (lib.classOf c).extends_.all (·.component.bare) &&
      (lib.outlineOf (.class_ c)).entries.all fun
        | .class_ d => (lib.classOf d).parent = some c
        | _ => true
  | .argument a =>
    (lib.argumentOf a).origin = a && (lib.outlineOf (.argument a)).entries.all fun
      | .class_ _ => false
      | _ => true
  | e => (lib.outlineOf e).entries.all fun
    | .class_ _ => false
    | _ => true

def isTree (lib : Library) (root : ClassId) (entries : List Entry) : Bool :=
  (lib.classOf root).parent = none && .class_ root ∈ entries && entries.all fun e =>
    lib.Has e && lib.fits e && (lib.outlineOf e).entries.all (· ∈ entries)

theorem tree_of_isTree {root : ClassId} (entries : List Entry)
    (check : lib.isTree root entries = true) : lib.Tree root := by
  simp only [isTree, Bool.and_eq_true, decide_eq_true_eq, List.all_eq_true] at check
  obtain ⟨⟨top, start⟩, all⟩ := check
  have reached : ∀ e, lib.Reaches (.class_ root) e → e ∈ entries := by
    intro e reached
    induction reached with
    | refl => exact start
    | tail _ leads ih => exact (all _ ih).2 _ leads
  refine ⟨top, fun e way => (all e (reached e way)).1.1, fun e c way leads => ?_, fun c way => ?_,
    fun a way => ?_, fun c way => ?_, fun c way => ?_⟩
  · have fits := (all e (reached e way)).1.2
    cases e with
    | class_ d =>
      simp only [Library.fits, Bool.and_eq_true, List.all_eq_true] at fits
      exact ⟨d, rfl, of_decide_eq_true (fits.2 _ leads)⟩
    | argument a =>
      simp only [Library.fits, Bool.and_eq_true, List.all_eq_true] at fits
      exact (Bool.false_ne_true (fits.2 _ leads)).elim
    | symbol s | modification m =>
      simp only [Library.fits, List.all_eq_true] at fits
      exact (Bool.false_ne_true (fits _ leads)).elim
  all_goals have fits := (all _ (reached _ way)).1.2
  all_goals simp only [Library.fits, Bool.and_eq_true, decide_eq_true_eq, List.all_eq_true] at fits
  · exact fits.1.1.1
  · exact fits.1
  · exact fits.1.1.2
  · exact fits.1.2

end Library

end Modelica
