import Modelica.Proofs.Source.ClassTree

set_option autoImplicit false

namespace Modelica.Build

open Library

-- Texts have been read one after the other, each into a tree of its own.
inductive Planting : List ClassId → Library → Prop
  | start (lib : Library) : Planting [] lib
  | read {roots : List ClassId} {lib next : Library} {root : ClassId} {text : String} (before : Planting roots lib)
      (read : define text lib = .ok root next) : Planting (root :: roots) next

variable {roots : List ClassId} {lib next : Library} {root c : ClassId}

theorem Consistent.later (consistent : Consistent lib root) (size : lib.classes.size ≤ next.classes.size)
    (same : ∀ x : ClassId, x.In lib → Define.Unmoved lib next x) : Consistent next root := by
  have known := consistent.nest.known
  have paths := at?_congr (c := root) fun x (below : lib.Below root x) => (same x (known x below)).2.1
  have back := fun x => (below_congr (x := x) fun x (below : lib.Below root x) => (same x (known x below)).2.1).1
  refine ⟨⟨fun x below => (known x (back x below)).trans_le size, fun x below => ?_, fun p q x first second =>
    consistent.nest.once p q x ((paths p).symm.trans first) ((paths q).symm.trans second)⟩, fun x below k e found => ?_⟩
  · rw [(same x (known x (back x below))).2.1]
    exact consistent.nest.keys x (back x below)
  · rw [(same x (known x (back x below))).2.1] at found
    have inside := (back x below).entry found
    rw [(same e (known e inside)).1, (same e (known e inside)).2.2]
    exact consistent.links x (back x below) k e found

theorem Planted.below_old (planted : Planted root lib next) (consistent : Consistent lib c) {x : ClassId}
    (below : next.Below c x) : lib.Below c x :=
  (below_congr fun x inside => (planted.old x (consistent.nest.known x inside)).2.1).1 below

theorem Planted.apart (planted : Planted root lib next) (consistent : Consistent lib c) (x : ClassId)
    (below : next.Below c x) : ¬ next.Below root x := fun inside =>
  absurd (consistent.nest.known x (planted.below_old consistent below)) (not_lt.2 (planted.new x inside))

theorem Consistent.linked {root : ClassId} (consistent : Consistent lib root) : Linked lib root lib := by
  intro x below y value
  obtain ⟨⟨k, y⟩, entry, rfl⟩ := List.mem_map.1 value
  exact (consistent.links x below k y (OrderedMap.find?_of_mem _ (consistent.nest.keys x below) k y entry)).2

theorem Planting.consistent (planting : Planting roots lib) : ∀ r ∈ roots, Consistent lib r := by
  induction planting with
  | start => nofun
  | read _ read ih =>
    have planted := define_planted read
    rw [List.forall_mem_cons]
    exact ⟨planted.consistent, fun r member => (ih r member).later planted.size planted.old⟩

theorem Planting.apart (planting : Planting roots lib) :
    ∀ r ∈ roots, ∀ s ∈ roots, r ≠ s → ∀ x, lib.Below r x → ¬ lib.Below s x := by
  induction planting with
  | start => nofun
  | @read roots lib next root text before read ih =>
    have planted := define_planted read
    have consistent := before.consistent
    have old : ∀ r ∈ roots, ∀ x, next.Below r x → lib.Below r x := fun r member x =>
      planted.below_old (consistent r member)
    have new := fun r member => planted.apart (consistent r member)
    intro r one s two differ x below inside
    obtain rfl | first := List.mem_cons.1 one <;> obtain rfl | second := List.mem_cons.1 two
    · exact differ rfl
    · exact new s second x inside below
    · exact new r first x below inside
    · exact ih r first s second differ x (old r first x below) (old s second x inside)

-- Trees that were read can be entered into the first of them, in any order and repeatedly. It has then exactly
-- the paths of all of them, and at each path the class of the first tree that has one there, with the content
-- that it had. In each class the names stand in the order in which they first occur. Each class has around it
-- the one that it is in, and to enter a tree again changes nothing.
theorem extendAll_unites (planting : Planting roots lib) {root : ClassId} {others : List ClassId}
    (listed : ∀ r ∈ root :: others, r ∈ roots) :
    ∃ next, extendAll root others lib = .ok () next ∧
      (∀ p, (next.at? root p).isSome ↔ ∃ r ∈ root :: others, (lib.at? r p).isSome) ∧
      (∀ p, next.at? root p = (root :: others).findSome? (lib.at? · p)) ∧
      (∀ c, ∃ classes parent, next.classOf c = { lib.classOf c with classes := classes, parent := parent }) ∧
      next.symbols = lib.symbols ∧ next.modifications = lib.modifications ∧ next.arguments = lib.arguments ∧
      (∀ p, next.keysAt root p = ((root :: others).map (lib.keysAt · p)).foldl addNew []) ∧
      (∀ p k x y, next.at? root p = some x → next.at? root (p ++ [k]) = some y →
        (next.classOf y).parent = some x) ∧
      ∀ r ∈ root :: others, extend root r next = .ok () next := by
  have consistent := fun r member => planting.consistent r (listed r member)
  have nests := fun r member => (consistent r member).nest
  obtain ⟨⟨⟩, next, run, loading⟩ := (extendAll_loads nests (fun r first s second =>
    planting.apart r (listed r first) s (listed s second)) (consistent root List.mem_cons_self).linked).exists
  refine ⟨next, run, fun p => ?_, loading.at?, loading.rearranged.content, loading.rearranged.symbols,
    loading.rearranged.modifications, loading.rearranged.arguments, loading.keys, fun p k x y above found => ?_,
    fun r member => extend_idle loading.nest loading.linked (loading.keys_nodup nests member) (loading.within r member)⟩
  · rw [loading.at?, List.findSome?_isSome_iff]
  · rw [at?_snoc above] at found
    exact loading.linked x ⟨p, above⟩ y (OrderedMap.mem_values_of_find? found)

theorem extendAll_unites_packages : ∃ first second lib next, Planting [second, first] lib ∧
    extendAll first [second] lib = .ok () next ∧ next.keysAt first [some "P"] = [some "A", some "B"] ∧
      extend first second next = .ok () next := by
  obtain ⟨first, now, read, more⟩ := exists_of_passes (define "within P; model A end A;") {}
    (fun first now => (define "package P model B end B; model A end A; end P;").passes now fun second lib =>
      decide (([first, second].map (lib.keysAt · [some "P"])).foldl addNew [] = [some "A", some "B"])) (by decide +kernel)
  obtain ⟨second, lib, again, names⟩ := exists_of_passes _ _ _ more
  have planting : Planting [second, first] lib := .read (.read (.start _) read) again
  have listed : ∀ r ∈ [first, second], r ∈ [second, first] := by simp
  obtain ⟨next, run, -, -, -, -, -, -, keys, -, idle⟩ := extendAll_unites planting listed
  exact ⟨first, second, lib, next, planting, run, (keys _).trans (of_decide_eq_true names), idle second (by simp)⟩

end Modelica.Build
