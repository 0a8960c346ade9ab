import Modelica.Library.Edit
import Modelica.Proofs.Source.ClassTree

set_option autoImplicit false

namespace Modelica

namespace Library

variable {lib : Library} {c d root : ClassId} {scopes : List ClassId}

-- A class, the class around it, and so on up to one that has none around it.
inductive Around (lib : Library) : ClassId → List ClassId → Prop
  | outermost {c : ClassId} (none : (lib.classOf c).parent = none) : Around lib c [c]
  | inner {c p : ClassId} {scopes : List ClassId} (parent : (lib.classOf c).parent = some p)
      (around : Around lib p scopes) : Around lib c (c :: scopes)

theorem Around.chain_eq (around : lib.Around c scopes) {fuel : Nat} (enough : scopes.length ≤ fuel) :
    lib.chain fuel c = scopes := by
  induction around generalizing fuel with
  | outermost none =>
    obtain ⟨fuel, rfl⟩ := Nat.exists_eq_add_of_le' enough
    show _ :: _ = _
    rw [none]
  | inner parent _ ih =>
    obtain ⟨fuel, rfl⟩ := Nat.exists_eq_add_of_le' (Nat.one_le_of_lt enough)
    rw [chain, parent]
    exact congrArg _ (ih (Nat.le_of_succ_le_succ enough))

theorem descend_eq_at? (names : List String) : lib.descend c names = lib.at? c (names.map some) := by
  induction names generalizing c with
  | nil => rfl
  | cons name rest ih =>
    rw [descend, List.map_cons, at?]
    cases (lib.classOf c).classes.find? (some name) with
    | none => rfl
    | some e => exact ih

end Library

namespace Build

open Library

variable {lib next : Library} {c d root : ClassId} {scopes : List ClassId}

section

variable (consistent : Consistent lib root) (top : (lib.classOf root).parent = none)
include consistent top

-- The names of the classes around a class make up the path that leads to it.
theorem Consistent.around (p : List (Option String)) (found : lib.at? root p = some c) :
    ∃ inner, lib.Around c (inner ++ [root]) ∧ inner.map (fun x => (lib.classOf x).name) = p.reverse := by
  induction p using List.reverseRecOn generalizing c with
  | nil =>
    cases found
    exact ⟨[], .outermost top, rfl⟩
  | append_singleton p k ih =>
    obtain ⟨x, above, found⟩ := at?_last found
    obtain ⟨inner, around, names⟩ := ih above
    obtain ⟨name, parent⟩ := consistent.links x ⟨p, above⟩ k c found
    exact ⟨c :: inner, .inner parent around, by rw [List.map_cons, name, names, List.reverse_concat]⟩

theorem Consistent.enclosing_eq (p : List (Option String)) (found : lib.at? root p = some c) :
    lib.Around c (lib.enclosing c) ∧ (lib.enclosing c).getLast? = some root ∧ lib.path c = p := by
  obtain ⟨inner, around, names⟩ := consistent.around top p found
  have length : inner.length = p.length := by simpa using congrArg List.length names
  have whole : lib.enclosing c = inner ++ [root] := by
    refine around.chain_eq ?_
    have short := consistent.nest.length_lt found
    rw [List.length_append, List.length_singleton]
    omega
  refine ⟨whole ▸ around, by rw [whole, List.getLast?_concat], ?_⟩
  rw [path, whole, List.map_append, List.map_singleton, List.dropLast_concat, names, List.reverse_reverse]

end

theorem findWith_of_ordinary (c : ClassId) {r : ComponentRef} (ordinary : r.name ∉ elementaryNames) :
    findWith c r false false lib = match lib.findClass? c r.names with
      | some d => .ok d lib
      | none => .error (.classNotFound r.text) lib := by
  have other : elementaryNames.contains r.name = false := by simpa using ordinary
  have unfolded : findWith c r false false lib = (findClass c r >>= pure) lib := by
    rw [findWith, other]
    rfl
  rw [unfolded, bind_pure]
  show (match lib.findClass? c r.names with
    | some d => pure d
    | none => throw (.classNotFound r.text) : Build ClassId) lib = _
  cases lib.findClass? c r.names <;> rfl

-- In a tree with consistent links a name stands for the class that it leads to as a whole from the innermost
-- class around from which it leads anywhere, and for none if there is no such class. So the path of a class
-- leads from the root back to it.
theorem findWith_innermost (consistent : Consistent lib root) (top : (lib.classOf root).parent = none)
    (inside : lib.Below root c) :
    (∃ scopes, lib.Around c scopes ∧ scopes.getLast? = some root ∧
      ∀ r : ComponentRef, r.name ∉ elementaryNames →
        (∀ d next, findWith c r false false lib = .ok d next ↔ next = lib ∧ ∃ inner scope outer,
          scopes = inner ++ scope :: outer ∧ lib.at? scope (r.names.map some) = some d ∧
            ∀ x ∈ inner, lib.at? x (r.names.map some) = none) ∧
        ∀ e next, findWith c r false false lib = .error e next ↔
          e = .classNotFound r.text ∧ next = lib ∧ ∀ x ∈ scopes, lib.at? x (r.names.map some) = none) ∧
    lib.at? root (lib.path c) = some c ∧
    ∀ first rest, lib.path c = (first :: rest).map some → first ∉ elementaryNames →
      findWith root (.ofNames first rest) false false lib = .ok c lib := by
  obtain ⟨p, found⟩ := inside
  obtain ⟨around, last, path⟩ := consistent.enclosing_eq top p found
  refine ⟨⟨lib.enclosing c, around, last, fun r ordinary => ?_⟩, path ▸ found, fun first rest names ordinary => ?_⟩
  · rw [findWith_of_ordinary c ordinary]
    have search : lib.findClass? c r.names =
        (lib.enclosing c).findSome? fun x => lib.at? x (r.names.map some) :=
      by
      rw [findClass?_scan]
      exact congrArg (List.findSome? · _) (funext fun _ => descend_eq_at? r.names)
    refine ⟨fun d next => ?_, fun e next => ?_⟩
    · rw [← List.findSome?_eq_some_iff, ← search]
      cases lib.findClass? c r.names with
      | none => simp
      | some e => simp [and_comm, eq_comm]
    · rw [← List.findSome?_eq_none_iff, ← search]
      cases lib.findClass? c r.names with
      | none => simp [eq_comm]
      | some e => simp
  · have name : (ComponentRef.ofNames first rest).name = first := by cases rest <;> rfl
    rw [path] at names
    rw [findWith_of_ordinary root (name.symm ▸ ordinary), ComponentRef.names_ofNames, findClass?_scan, enclosing, chain,
      List.findSome?_cons, descend_eq_at?, ← names, found]

-- The package `A` beside the model is met first, but the path does not lead on from there.
theorem findWith_innermost_nested : ∃ root lib c d,
    define "package P package A end A; model M end M; end P; package A model B end B; end A;" {} = .ok root lib ∧
      lib.at? root [some "P", some "M"] = some c ∧ (lib.at? root [some "P", some "A"]).isSome = true ∧
      lib.at? root [some "A", some "B"] = some d ∧ findWith c (.ofNames "A" ["B"]) false false lib = .ok d lib := by
  obtain ⟨root, lib, read, held⟩ := exists_of_passes
    (define "package P package A end A; model M end M; end P; package A model B end B; end A;") {} (fun root lib =>
      (lib.at? root [some "P", some "M"]).any fun c => (lib.at? root [some "P"]).any fun p =>
        (lib.at? root [some "A", some "B"]).any fun _ => (lib.at? root [some "P", some "A"]).isSome &&
          decide ((lib.classOf root).parent = none ∧ (lib.classOf c).parent = some p ∧
            (lib.classOf p).parent = some root ∧ lib.at? c [some "A", some "B"] = none ∧
            lib.at? p [some "A", some "B"] = none)) (by decide +kernel)
  obtain ⟨c, found, held⟩ := (Option.any_eq_true _ _).1 held
  obtain ⟨p, -, held⟩ := (Option.any_eq_true _ _).1 held
  obtain ⟨d, there, held⟩ := (Option.any_eq_true _ _).1 held
  rw [Bool.and_eq_true, decide_eq_true_eq] at held
  obtain ⟨partly, top, inner, outer, first, second⟩ := held
  obtain ⟨⟨scopes, around, -, finds⟩, -⟩ := findWith_innermost (define_planted read).consistent top ⟨_, found⟩
  have scopes_eq : scopes = [c, p, root] := by
    refine (around.chain_eq (le_max_left _ 3)).symm.trans ?_
    obtain ⟨fuel, same⟩ := Nat.exists_eq_add_of_le' (le_max_right scopes.length 3)
    simp [same, chain, inner, outer, top]
  have looks := (finds (.ofNames "A" ["B"]) (by decide)).1 d lib
  rw [ComponentRef.names_ofNames] at looks
  have leads : ∀ x ∈ [c, p], lib.at? x [some "A", some "B"] = none := by simp [first, second]
  exact ⟨root, lib, c, d, read, found, partly, there, looks.2 ⟨rfl, [c, p], root, [], scopes_eq, there, leads⟩⟩

end Build

end Modelica
