import Mathlib.Data.Finset.Card
import Mathlib.Data.List.Pairwise
import Modelica.Library.Flatten
import Modelica.Proofs.Library.Entries
import Modelica.Proofs.OrderedMap

set_option autoImplicit false

namespace Modelica

open OrderedMap
open List (cons_append map_append mem_append mem_append_left mem_cons_self mem_singleton)

namespace Library

def at? (lib : Library) (c : ClassId) : List (Option String) → Option ClassId
  | [] => some c
  | name :: rest => ((lib.classOf c).classes.find? name).bind (lib.at? · rest)

def Below (lib : Library) (c x : ClassId) : Prop := ∃ p, lib.at? c p = some x

variable {lib now next : Library} {c d e x y : ClassId} {k : Option String}

theorem at?_append (p q : List (Option String)) : lib.at? c (p ++ q) = (lib.at? c p).bind (lib.at? · q) := by
  induction p generalizing c with
  | nil => rfl
  | cons name p ih =>
    rw [cons_append, at?, at?]
    cases (lib.classOf c).classes.find? name with
    | none => rfl
    | some e => exact ih

theorem at?_single : lib.at? c [k] = (lib.classOf c).classes.find? k := by
  rw [at?]
  cases (lib.classOf c).classes.find? k <;> rfl

theorem at?_last {p : List (Option String)} (found : lib.at? c (p ++ [k]) = some y) :
    ∃ x, lib.at? c p = some x ∧ (lib.classOf x).classes.find? k = some y := by
  rw [at?_append] at found
  obtain ⟨x, above, here⟩ := Option.bind_eq_some_iff.1 found
  exact ⟨x, above, at?_single.symm.trans here⟩

theorem at?_snoc {p : List (Option String)} (above : lib.at? c p = some x) :
    lib.at? c (p ++ [k]) = (lib.classOf x).classes.find? k := by
  rw [at?_append, above, Option.bind_some, at?_single]

theorem at?_cons (found : (lib.classOf c).classes.find? k = some e) (p : List (Option String)) :
    lib.at? c (k :: p) = lib.at? e p := by
  rw [at?, found]
  rfl

theorem Below.self (lib : Library) (c : ClassId) : lib.Below c c := ⟨[], rfl⟩

theorem Below.child (found : (lib.classOf c).classes.find? k = some e) (below : lib.Below e x) : lib.Below c x := by
  obtain ⟨p, there⟩ := below
  exact ⟨k :: p, (at?_cons found p).trans there⟩

section

variable (same : ∀ x, lib.Below c x → (next.classOf x).classes = (lib.classOf x).classes)
include same

theorem at?_congr (p : List (Option String)) : next.at? c p = lib.at? c p := by
  induction p generalizing c with
  | nil => rfl
  | cons name p ih =>
    rw [at?, at?, same c (.self lib c)]
    cases found : (lib.classOf c).classes.find? name with
    | none => rfl
    | some e => exact ih fun x below => same x (below.child found)

theorem below_congr : next.Below c x ↔ lib.Below c x :=
  exists_congr fun p => by rw [at?_congr same p]

end

-- If each class is in one class only, under one name, there is one path to it from a class that is in none.
theorem at?_unique {r s : ClassId} {inside : ClassId → Prop} (first : ∀ x, lib.Below r x → inside x)
    (second : ∀ x, lib.Below s x → inside x) (top : ∀ x, inside x → ∀ k,
      (lib.classOf x).classes.find? k ≠ some r ∧ (lib.classOf x).classes.find? k ≠ some s)
    (single : ∀ x y, inside x → inside y → ∀ j k e, (lib.classOf x).classes.find? j = some e →
      (lib.classOf y).classes.find? k = some e → x = y ∧ j = k) (p q : List (Option String))
    (here : lib.at? r p = some x) (there : lib.at? s q = some x) : r = s ∧ p = q := by
  -- by going up from the class on both paths
  induction p using List.reverseRecOn generalizing q x with
  | nil =>
    cases here
    cases q using List.reverseRecOn with
    | nil =>
      cases there
      exact ⟨rfl, rfl⟩
    | append_singleton q k =>
      obtain ⟨z, above, found⟩ := at?_last there
      exact absurd found (top z (second z ⟨q, above⟩) k).1
  | append_singleton p j ih =>
    obtain ⟨y, above, found⟩ := at?_last here
    cases q using List.reverseRecOn with
    | nil =>
      cases there
      exact absurd found (top y (first y ⟨p, above⟩) j).2
    | append_singleton q k =>
      obtain ⟨z, above', found'⟩ := at?_last there
      obtain ⟨rfl, rfl⟩ := single y z (first y ⟨p, above⟩) (second z ⟨q, above'⟩) j k x found found'
      obtain ⟨same, rfl⟩ := ih q above above'
      exact ⟨same, rfl⟩

structure Nest (lib : Library) (c : ClassId) : Prop where
  known : ∀ x, lib.Below c x → x.index < lib.classes.size
  keys : ∀ x, lib.Below c x → (lib.classOf x).classes.keys.Nodup
  once : ∀ p q x, lib.at? c p = some x → lib.at? c q = some x → p = q

namespace Nest

variable (nest : lib.Nest c)

include nest

theorem child (found : (lib.classOf c).classes.find? k = some e) : lib.Nest e where
  known x below := nest.known x (below.child found)
  keys x below := nest.keys x (below.child found)
  once p q x first second := by
    have same := nest.once (k :: p) (k :: q) x ((at?_cons found p).trans first) ((at?_cons found q).trans second)
    exact (List.cons.inj same).2

theorem not_below_child (found : (lib.classOf c).classes.find? k = some e) : ¬ lib.Below e c := by
  rintro ⟨p, there⟩
  cases nest.once [] (k :: p) c rfl ((at?_cons found p).trans there)

theorem siblings {j : Option String} (first : (lib.classOf c).classes.find? k = some d)
    (second : (lib.classOf c).classes.find? j = some e) (differ : k ≠ j) (inside : lib.Below d x) :
    ¬ lib.Below e x := by
  rintro ⟨q, there⟩
  obtain ⟨p, here⟩ := inside
  have same := nest.once (k :: p) (j :: q) x ((at?_cons first p).trans here) ((at?_cons second q).trans there)
  exact differ (List.cons.inj same).1

theorem length_lt {p : List (Option String)} (found : lib.at? c p = some x) : p.length < lib.classes.size := by
  have passed : ∀ i, ∃ y, lib.at? c (p.take i) = some y := by
    intro i
    have whole := found
    rw [← List.take_append_drop i p, at?_append] at whole
    obtain ⟨y, there, -⟩ := Option.bind_eq_some_iff.1 whole
    exact ⟨y, there⟩
  have few : (Finset.range (p.length + 1)).card ≤ (Finset.range lib.classes.size).card := by
    refine Finset.card_le_card_of_injOn (fun i => ((lib.at? c (p.take i)).getD c).index) ?_ ?_
    · intro i _
      obtain ⟨y, there⟩ := passed i
      simpa [there] using nest.known y ⟨_, there⟩
    · intro i first j second same
      obtain ⟨y, there⟩ := passed i
      obtain ⟨z, here⟩ := passed j
      simp only [there, here, Option.getD_some] at same
      obtain rfl : y = z := by
        cases y
        cases z
        exact congrArg ClassId.mk same
      have equal := congrArg List.length (nest.once _ _ y there here)
      simp only [Finset.coe_range, Set.mem_Iio] at first second
      rw [List.length_take, List.length_take] at equal
      omega
  rw [Finset.card_range, Finset.card_range] at few
  exact few

theorem values_nodup : (lib.classOf c).classes.values.Nodup := by
  have keys := nest.keys c (.self lib c)
  refine List.Nodup.map_on ?_ (List.Nodup.of_map _ keys)
  rintro ⟨k, e⟩ first ⟨j, d⟩ second same
  obtain rfl : e = d := same
  have here := find?_of_mem _ keys k e first
  have there := find?_of_mem _ keys j e second
  have equal := nest.once [k] [j] e (at?_single.trans here) (at?_single.trans there)
  rw [(List.cons.inj equal).1]

end Nest

structure Rearranged (lib : Library) (touched : ClassId → Prop) (next : Library) : Prop where
  symbols : next.symbols = lib.symbols
  modifications : next.modifications = lib.modifications
  arguments : next.arguments = lib.arguments
  size : next.classes.size = lib.classes.size
  content : ∀ c, ∃ classes parent,
    next.classOf c = { lib.classOf c with classes := classes, parent := parent }
  keys : ∀ c, (lib.classOf c).classes.keys.Nodup → (next.classOf c).classes.keys.Nodup
  others : ∀ c, ¬ touched c → next.classOf c = lib.classOf c

namespace Rearranged

variable {touched touched' : ClassId → Prop}

theorem refl (lib : Library) (touched : ClassId → Prop) : lib.Rearranged touched lib where
  symbols := rfl
  modifications := rfl
  arguments := rfl
  size := rfl
  content _ := ⟨_, _, rfl⟩
  keys _ := id
  others _ _ := rfl

section

variable (first : lib.Rearranged touched now)
include first

theorem trans (second : now.Rearranged touched' next)
    (inside : ∀ c, touched' c → touched c) : lib.Rearranged touched next where
  symbols := second.symbols.trans first.symbols
  modifications := second.modifications.trans first.modifications
  arguments := second.arguments.trans first.arguments
  size := second.size.trans first.size
  content c := by
    obtain ⟨classes, parent, before⟩ := first.content c
    obtain ⟨classes', parent', after⟩ := second.content c
    exact ⟨classes', parent', by rw [after, before]⟩
  keys c unique := second.keys c (first.keys c unique)
  others c other := (second.others c fun is => other (inside c is)).trans (first.others c other)

theorem mono (inside : ∀ c, touched c → touched' c) : lib.Rearranged touched' now :=
  { first with others := fun c other => first.others c fun is => other (inside c is) }

theorem modifyClass (is : touched c) (known : c.In now) (f : ClassDef → ClassDef)
    (content : ∃ classes parent, f (now.classOf c) = { now.classOf c with classes := classes, parent := parent })
    (keys : (now.classOf c).classes.keys.Nodup → (f (now.classOf c)).classes.keys.Nodup) :
    lib.Rearranged touched (now.modifyClass c f) := by
  obtain ⟨_, rfl, here, elsewhere, size⟩ := exists_modifyClass now c f known
  have step : now.Rearranged touched (now.modifyClass c f) := by
    refine ⟨rfl, rfl, rfl, size, fun e => ?_, fun e unique => ?_, fun e other => ?_⟩
    · obtain rfl | differ := eq_or_ne c e
      · rw [here]
        exact content
      · rw [elsewhere e differ]
        exact ⟨_, _, rfl⟩
    · obtain rfl | differ := eq_or_ne c e
      · rw [here]
        exact keys unique
      · rw [elsewhere e differ]
        exact unique
    · exact elsewhere e fun same => other (same ▸ is)
  exact first.trans step fun _ => id

theorem nest (nest : lib.Nest c) (same : ∀ p, now.at? c p = lib.at? c p) : now.Nest c where
  known x below := by
    obtain ⟨p, there⟩ := below
    exact first.size ▸ nest.known x ⟨p, (same p).symm.trans there⟩
  keys x below := by
    obtain ⟨p, there⟩ := below
    exact first.keys x (nest.keys x ⟨p, (same p).symm.trans there⟩)
  once p q x here there := nest.once p q x ((same p).symm.trans here) ((same q).symm.trans there)

theorem at?_eq (apart : ∀ x, lib.Below c x → ¬ touched x) (p : List (Option String)) : now.at? c p = lib.at? c p :=
  at?_congr (fun x below => by rw [first.others x (apart x below)]) p

end

end Rearranged

def keysAt (lib : Library) (c : ClassId) (p : List (Option String)) : List (Option String) :=
  (lib.at? c p).elim [] fun x => (lib.classOf x).classes.keys

theorem mem_keysAt {p : List (Option String)} : k ∈ lib.keysAt c p ↔ (lib.at? c (p ++ [k])).isSome := by
  rw [keysAt, at?_append]
  cases lib.at? c p with
  | none => simp
  | some x => rw [Option.bind_some, at?_single, find?_isSome_iff, Option.elim_some]

def addNew (seen names : List (Option String)) : List (Option String) := seen ++ names.filter (· ∉ seen)

structure Combined (lib : Library) (c d : ClassId) (next : Library) : Prop where
  rearranged : lib.Rearranged (lib.Below c) next
  at? : ∀ p, next.at? c p = (lib.at? c p).or (lib.at? d p)
  keys : ∀ p x, lib.at? c p = some x →
    (next.classOf x).classes.keys = addNew (lib.classOf x).classes.keys (lib.keysAt d p)

theorem Combined.nest (combined : lib.Combined c d next) (first : lib.Nest c)
    (second : lib.Nest d) (apart : ∀ x, lib.Below c x → ¬ lib.Below d x) : next.Nest c := by
  have below : ∀ p x, next.at? c p = some x → lib.at? c p = some x ∨ lib.at? d p = some x := by
    intro p x found
    rw [combined.at?] at found
    obtain here | ⟨-, here⟩ := Option.or_eq_some_iff.1 found
    · exact .inl here
    · exact .inr here
  refine ⟨fun x inside => ?_, fun x inside => combined.rearranged.keys x ?_, fun p q x here there => ?_⟩
  · rw [combined.rearranged.size]
    obtain ⟨p, found⟩ := inside
    obtain found | found := below p x found
    · exact first.known x ⟨p, found⟩
    · exact second.known x ⟨p, found⟩
  · obtain ⟨p, found⟩ := inside
    obtain found | found := below p x found
    · exact first.keys x ⟨p, found⟩
    · exact second.keys x ⟨p, found⟩
  · obtain here | here := below p x here <;> obtain there | there := below q x there
    · exact first.once p q x here there
    · exact absurd ⟨q, there⟩ (apart x ⟨p, here⟩)
    · exact absurd ⟨p, here⟩ (apart x ⟨q, there⟩)
    · exact second.once p q x here there

end Library

namespace Build

open Library

variable {lib : Library} {c d : ClassId}

structure Combining (lib : Library) (c d : ClassId) (done : List (Option String)) (now : Library) :
    Prop where
  rearranged : lib.Rearranged (lib.Below c) now
  at? : ∀ k p, now.at? c (k :: p) =
    (lib.at? c (k :: p)).or (if k ∈ done then lib.at? d (k :: p) else none)
  keys : (now.classOf c).classes.keys = addNew (lib.classOf c).classes.keys done
  deeper : ∀ k p x, lib.at? c (k :: p) = some x → (now.classOf x).classes.keys =
    addNew (lib.classOf x).classes.keys (if k ∈ done then lib.keysAt d (k :: p) else [])

section Step

variable {done : List (Option String)} {now next : Library} {k : Option String} {e : ClassId}
  (combining : Combining lib c d done now) (first : lib.Nest c)
  (apart : ∀ x, lib.Below c x → ¬ lib.Below d x) (pending : k ∉ done)

include combining

theorem Combining.below {p : List (Option String)} {j : Option String} {x : ClassId}
    (found : now.at? c (j :: p) = some x) : lib.at? c (j :: p) = some x ∨ lib.at? d (j :: p) = some x := by
  rw [combining.at?] at found
  split at found
  · obtain here | ⟨-, here⟩ := Option.or_eq_some_iff.1 found
    · exact .inl here
    · exact .inr here
  · rw [Option.or_none] at found
    exact .inl found

include pending in
theorem Combining.at?_pending (p : List (Option String)) : now.at? c (k :: p) = lib.at? c (k :: p) := by
  rw [combining.at?, if_neg pending, Option.or_none]

include pending in
theorem Combining.find?_pending : (now.classOf c).classes.find? k = (lib.classOf c).classes.find? k := by
  rw [← at?_single, ← at?_single, combining.at?_pending pending]

theorem Combining.at?_second (apart : ∀ x, lib.Below c x → ¬ lib.Below d x)
    (found : (lib.classOf d).classes.find? k = some e) (p : List (Option String)) : now.at? e p = lib.at? e p :=
  combining.rearranged.at?_eq (fun x inside touched => apart x touched (inside.child found)) p

theorem Combining.advance (rearranged : lib.Rearranged (lib.Below c) next)
    (here : ∀ p, next.at? c (k :: p) = (lib.at? c (k :: p)).or (lib.at? d (k :: p)))
    (elsewhere : ∀ j p, j ≠ k → next.at? c (j :: p) = now.at? c (j :: p))
    (keys : (next.classOf c).classes.keys = addNew (lib.classOf c).classes.keys (done ++ [k]))
    (within : ∀ p x, lib.at? c (k :: p) = some x → (next.classOf x).classes.keys =
      addNew (lib.classOf x).classes.keys (lib.keysAt d (k :: p)))
    (apart : ∀ j p x, j ≠ k → lib.at? c (j :: p) = some x → next.classOf x = now.classOf x) :
    Combining lib c d (done ++ [k]) next where
  rearranged := rearranged
  keys := keys
  deeper j p x found := by
    by_cases same : j = k
    · subst same
      rw [within p x found, if_pos (by simp)]
    · rw [apart j p x same found, combining.deeper j p x found]
      simp [same]
  at? j p := by
    by_cases same : j = k
    · subst same
      rw [here, if_pos (by simp)]
    · rw [elsewhere j p same, combining.at?]
      simp [same]

include first apart pending

theorem Combining.enter (found : (lib.classOf d).classes.find? k = some e)
    (absent : (now.classOf c).classes.find? k = none) :
    Combining lib c d (done ++ [k]) (now.modifyClass c fun b => { b with classes := b.classes.insert k e }) := by
  have known : c.index < now.classes.size := combining.rearranged.size.symm ▸ first.known c (.self lib c)
  have rearranged := combining.rearranged.modifyClass (.self lib c) known
    (fun b => { b with classes := b.classes.insert k e }) ⟨_, _, rfl⟩
    fun unique => nodup_insert _ unique k e
  obtain ⟨next, same, stored, other, -⟩ := exists_modifyClass now c _ known
  rw [same] at rearranged ⊢
  have nothing : ∀ p, lib.at? c (k :: p) = none := by
    intro p
    rw [Library.at?, ← combining.find?_pending pending, absent]
    rfl
  have new := combining.find?_pending pending ▸ absent
  rw [find?_eq_none_iff] at absent new
  refine combining.advance rearranged (fun p => ?_) (fun j p differ => ?_) ?_ (fun p x held => ?_)
    fun j p x _ held => other x ?_
  · have entered : (next.classOf c).classes.find? k = some e := by
      rw [stored]
      exact find?_insert_self _ k e
    rw [at?_cons entered, rearranged.at?_eq fun x inside touched => apart x touched (inside.child found),
      ← at?_cons found, nothing p, Option.none_or]
  · rw [Library.at?, Library.at?, stored, find?_insert_ne _ differ]
    cases present : (now.classOf c).classes.find? j with
    | none => rfl
    | some b =>
      refine at?_congr (fun x inside => ?_) p
      rw [other x]
      rintro rfl
      -- the class itself is not inside one of its classes
      obtain ⟨q, there⟩ := inside
      obtain below | below := combining.below ((at?_cons present q).trans there)
      · cases first.once [] (j :: q) c rfl below
      · exact apart c (.self lib c) ⟨_, below⟩
  · rw [stored, keys_insert, if_neg absent, combining.keys]
    simp [addNew, new]
  · rw [nothing p] at held
    cases held
  · rintro rfl
    cases first.once [] (j :: p) c rfl held

theorem Combining.merge {b : ClassId} (found : (lib.classOf d).classes.find? k = some e)
    (present : (now.classOf c).classes.find? k = some b) (combined : now.Combined b e next) :
    Combining lib c d (done ++ [k]) next := by
  have mine := combining.find?_pending pending
  rw [present] at mine
  have inside : ∀ x, now.Below b x → lib.Below b x := by
    rintro x ⟨p, there⟩
    refine ⟨p, ?_⟩
    rw [← at?_cons mine.symm, ← combining.at?_pending pending, at?_cons present, there]
  have stored : next.classOf c = now.classOf c :=
    combined.rearranged.others c fun touched => first.not_below_child mine.symm (inside c touched)
  refine combining.advance (combining.rearranged.trans combined.rearranged fun x touched =>
    (inside x touched).child mine.symm) (fun p => ?_) (fun j p differ => ?_) ?_ (fun p x held => ?_)
    fun j p x differ held => combined.rearranged.others x ?_
  · rw [at?_cons (stored ▸ present), combined.at?, combining.at?_second apart found, ← at?_cons present,
      combining.at?_pending pending, at?_cons found]
  · rw [Library.at?, Library.at?, stored]
    cases there : (now.classOf c).classes.find? j with
    | none => rfl
    | some a =>
      refine combined.rearranged.at?_eq (fun x below touched => ?_) p
      obtain ⟨q, reached⟩ := below
      obtain ⟨r, touched⟩ := inside x touched
      rw [← at?_cons mine.symm] at touched
      obtain before | before := combining.below ((at?_cons there q).trans reached)
      · exact differ (List.cons.inj (first.once _ _ x before touched)).1
      · exact apart x ⟨_, touched⟩ ⟨_, before⟩
  · have old : k ∈ (lib.classOf c).classes.keys := by
      rw [← find?_isSome_iff, ← mine]
      rfl
    rw [stored, combining.keys]
    simp [addNew, old]
  · have same := combining.deeper k p x held
    rw [if_neg pending, addNew, List.filter_nil, List.append_nil] at same
    have reached : now.at? b p = some x := by
      rw [← at?_cons present, combining.at?_pending pending, held]
    have tables : now.keysAt e p = lib.keysAt d (k :: p) := by
      rw [keysAt, keysAt, combining.at?_second apart found, at?_cons found]
      cases there : lib.at? e p with
      | none => rfl
      | some y =>
        exact congrArg (·.classes.keys) (combining.rearranged.others y fun touched => apart y touched
          (.child found ⟨p, there⟩))
    rw [combined.keys p x reached, same, tables]
  · intro touched
    obtain ⟨q, there⟩ := inside x touched
    exact differ (List.cons.inj (first.once _ _ x held ((at?_cons mine.symm q).trans there))).1

end Step

theorem mergeClasses_merged (fuel : Nat) (lib : Library) (c d : ClassId) (first : lib.Nest c)
    (second : lib.Nest d) (apart : ∀ x, lib.Below c x → ¬ lib.Below d x)
    (deep : ∀ p x, lib.at? d p = some x → p.length < fuel) :
    (mergeClasses fuel c d).Returns lib fun _ next => lib.Combined c d next := by
  induction fuel generalizing lib c d with
  | zero => exact absurd (deep [] d rfl) (Nat.lt_irrefl 0)
  | succ fuel ih =>
    have unique := second.keys d (.self lib d)
    unfold mergeClasses
    rw [Returns, bind_classOf, ensures_bind]
    refine ensures_forIn _ _ _ (fun done _ now => Combining lib c d (done.map Prod.fst) now)
      ⟨.refl lib _, fun k p => by simp, by simp [addNew], fun k p x _ => by simp [addNew]⟩ ?_ ?_
    · rintro done ⟨k, e⟩ rest ⟨⟩ now all combining
      have pending : k ∉ done.map Prod.fst := not_mem_done unique all
      have found := find?_of_mem _ unique k e (all ▸ by simp)
      rw [map_append, bind_classOf]
      split
      · next b present =>
        have mine := combining.find?_pending pending
        rw [present] at mine
        have same : ∀ p, now.at? b p = lib.at? b p := by
          intro p
          rw [← at?_cons present, combining.at?_pending pending, at?_cons mine.symm]
        have twin := combining.at?_second apart found
        refine Ensures.bind (ih now b e (combining.rearranged.nest (first.child mine.symm) same)
          (combining.rearranged.nest (second.child found) twin) ?_ ?_) fun _ next combined =>
          .pure (combining.merge first apart pending found present combined)
        · rintro x ⟨p, here⟩ ⟨q, there⟩
          exact apart x (.child mine.symm ⟨p, (same p).symm.trans here⟩) (.child found ⟨q, (twin q).symm.trans there⟩)
        · intro p x reached
          have longer := deep (k :: p) x ((at?_cons found p).trans ((twin p).symm.trans reached))
          exact Nat.lt_of_succ_lt_succ longer
      · next absent =>
        rw [bind_updateClass, ensures_pure]
        exact combining.enter first apart pending found absent
    · rintro ⟨⟩ next combining
      have nothing : ∀ k p, k ∉ (lib.classOf d).classes.keys → lib.at? d (k :: p) = none := by
        intro k p missing
        rw [Library.at?, (find?_eq_none_iff _ k).2 missing]
        rfl
      refine .pure ⟨combining.rearranged, ?_, ?_⟩
      · rintro (_ | ⟨k, p⟩)
        · rfl
        · rw [combining.at?]
          split
          · rfl
          · next missing => rw [nothing k p missing]
      · rintro (_ | ⟨k, p⟩) x held
        · cases held
          exact combining.keys
        · rw [combining.deeper k p x held]
          split
          · rfl
          · next missing =>
            rw [keysAt, nothing k p missing]
            rfl

def Linked (lib : Library) (c : ClassId) (next : Library) : Prop :=
  ∀ x, lib.Below c x → ∀ y ∈ (lib.classOf x).classes.values, (next.classOf y).parent = some x

theorem below_of_value (nest : lib.Nest c) {e : ClassId} (member : e ∈ (lib.classOf c).classes.values) :
    ∃ k, (lib.classOf c).classes.find? k = some e := by
  obtain ⟨⟨k, e⟩, entry, rfl⟩ := List.mem_map.1 member
  exact ⟨k, find?_of_mem _ (nest.keys c (.self lib c)) k e entry⟩

theorem linkParents_linked (fuel : Nat) (lib : Library) (c : ClassId) (nest : lib.Nest c)
    (deep : ∀ p x, lib.at? c p = some x → p.length < fuel) :
    (Define.linkParents fuel c).Returns lib fun _ next =>
      lib.Rearranged (fun x => lib.Below c x ∧ x ≠ c) next ∧
      (∀ x, (next.classOf x).classes = (lib.classOf x).classes) ∧ Linked lib c next := by
  induction fuel generalizing lib c with
  | zero => exact absurd (deep [] c rfl) (Nat.lt_irrefl 0)
  | succ fuel ih =>
    unfold Define.linkParents
    rw [Returns, bind_classOf, ensures_bind]
    refine ensures_forIn _ _ _ (fun done _ now => lib.Rearranged (fun x => lib.Below c x ∧ x ≠ c) now ∧
      (∀ x, (now.classOf x).classes = (lib.classOf x).classes) ∧
      ∀ e ∈ done, (now.classOf e).parent = some c ∧ Linked lib e now) ⟨.refl lib _, fun _ => rfl, by rintro _ ⟨⟩⟩
      ?_ ?_
    · rintro done e rest ⟨⟩ now all ⟨rearranged, same, linked⟩
      have values := nest.values_nodup
      obtain ⟨k, found⟩ := below_of_value nest (e := e) (all ▸ by simp)
      have inside : ∀ x, lib.Below e x → lib.Below c x ∧ x ≠ c := by
        intro x below
        refine ⟨below.child found, ?_⟩
        rintro rfl
        exact nest.not_below_child found below
      have known : e.index < now.classes.size := rearranged.size.symm ▸ nest.known e (inside e (.self lib e)).1
      rw [bind_updateClass]
      have marked := rearranged.modifyClass (inside e (.self lib e)) known
        (fun d => { d with parent := some c }) ⟨_, _, rfl⟩ id
      obtain ⟨mid, entered, stored, other, -⟩ := exists_modifyClass now e _ known
      rw [entered] at marked ⊢
      have classes : ∀ x, (mid.classOf x).classes = (lib.classOf x).classes := by
        intro x
        obtain rfl | differ := eq_or_ne e x
        · rw [stored, same]
        · rw [other x differ, same]
      have paths : ∀ p, mid.at? e p = lib.at? e p := at?_congr fun x _ => classes x
      have within := fun x => below_congr (x := x) fun x (_ : lib.Below e x) => classes x
      refine Ensures.bind (ih mid e (marked.nest (nest.child found) paths) fun p x reached => ?_) ?_
      · have longer := deep (k :: p) x ((at?_cons found p).trans ((paths p).symm.trans reached))
        exact Nat.lt_of_succ_lt_succ longer
      rintro ⟨⟩ next ⟨deeper, kept, below⟩
      refine .pure ⟨marked.trans deeper fun x touched =>
        inside x ((within x).1 touched.1), fun x => (kept x).trans (classes x), ?_⟩
      intro a member
      rw [mem_append, mem_singleton] at member
      obtain earlier | rfl := member
      · -- the classes that were done before are not touched again
        obtain ⟨j, before⟩ := below_of_value nest (e := a) (all ▸ by simp [earlier])
        have differ : a ≠ e := by
          rintro rfl
          rw [all, List.nodup_append] at values
          exact values.2.2 a earlier a (by simp) rfl
        have keys : j ≠ k := by
          rintro rfl
          exact differ (Option.some.inj (before.symm.trans found))
        have untouched : ∀ y, lib.Below a y → next.classOf y = now.classOf y := by
          intro y reached
          have outside := nest.siblings before found keys reached
          rw [deeper.others y fun touched => outside ((within y).1 touched.1), other y]
          rintro rfl
          exact outside (.self lib _)
        obtain ⟨around, linked⟩ := linked a earlier
        refine ⟨by rw [untouched a (.self lib a), around], fun x reached y value => ?_⟩
        obtain ⟨p, reached'⟩ := reached
        obtain ⟨i, nested⟩ := List.mem_map.1 value
        have child := find?_of_mem _ ((nest.child before).keys x ⟨p, reached'⟩) i.1 i.2 nested.1
        have below : lib.Below a y := by
          refine ⟨p ++ [i.1], ?_⟩
          rw [at?_snoc reached', child, nested.2]
        rw [untouched y below]
        exact linked x ⟨p, reached'⟩ y value
      · refine ⟨by rw [deeper.others a fun touched => touched.2 rfl, stored], fun x reached y value => ?_⟩
        exact below x ((within x).2 reached) y ((classes x).symm ▸ value)
    · rintro ⟨⟩ next ⟨rearranged, same, linked⟩
      refine .pure ⟨rearranged, same, ?_⟩
      rintro x ⟨p, reached⟩ y value
      cases p with
      | nil =>
        cases reached
        exact (linked y value).1
      | cons k p =>
        obtain ⟨e, found, rest⟩ := Option.bind_eq_some_iff.1 reached
        have member : e ∈ (lib.classOf c).classes.values := mem_values_of_find? found
        exact (linked e member).2 x ⟨p, rest⟩ y value

-- The classes of the first tree stay where they are, those of the second are entered where there was none.
structure Grafted (lib : Library) (c d : ClassId) (next : Library) : Prop where
  rearranged : lib.Rearranged (fun x => lib.Below c x ∨ lib.Below d x) next
  nest : next.Nest c
  at? : ∀ p, next.at? c p = (lib.at? c p).or (lib.at? d p)
  linked : Linked next c next
  tables : ∀ x, ¬ lib.Below c x → (next.classOf x).classes = (lib.classOf x).classes
  keys : ∀ p x, lib.at? c p = some x →
    (next.classOf x).classes.keys = addNew (lib.classOf x).classes.keys (lib.keysAt d p)

theorem extend_merges (first : lib.Nest c) (second : lib.Nest d)
    (apart : ∀ x, lib.Below c x → ¬ lib.Below d x) : (extend c d).Returns lib fun _ next => Grafted lib c d next := by
  unfold extend
  rw [Returns, bind_get]
  refine Ensures.bind (mergeClasses_merged _ lib c d first second apart fun p x found =>
    Nat.lt_succ_of_lt (second.length_lt found)) ?_
  rintro ⟨⟩ mid combined
  have nest := combined.nest first second apart
  have size := combined.rearranged.size
  refine (linkParents_linked _ mid c nest fun p x found => Nat.lt_succ_of_lt (size ▸ nest.length_lt found)).mono ?_
  rintro ⟨⟩ next ⟨rearranged, classes, linked⟩
  have paths := at?_congr (c := c) fun x (_ : mid.Below c x) => classes x
  refine ⟨(combined.rearranged.mono fun x => .inl).trans rearranged ?_, rearranged.nest nest paths,
    fun p => (paths p).trans (combined.at? p), ?_, fun x outside => ?_, fun p x held => ?_⟩
  · rintro x ⟨⟨p, found⟩, -⟩
    rw [combined.at?] at found
    obtain here | ⟨-, here⟩ := Option.or_eq_some_iff.1 found
    · exact .inl ⟨p, here⟩
    · exact .inr ⟨p, here⟩
  · rintro x ⟨p, found⟩ y value
    exact linked x ⟨p, (paths p).symm.trans found⟩ y (classes x ▸ value)
  · rw [classes, combined.rearranged.others x outside]
  · rw [classes, combined.keys p x held]

section Again

def Within (lib : Library) (c d : ClassId) : Prop :=
  ∀ p y, lib.at? d p = some y → ∃ x, lib.at? c p = some x ∧ (x = y ∨ ¬ lib.Below c y)

theorem mergeClasses_idle (fuel : Nat) (c d : ClassId) (keys : ∀ x, lib.Below d x → (lib.classOf x).classes.keys.Nodup)
    (covered : ∀ p, (lib.at? d p).isSome → (lib.at? c p).isSome)
    (deep : ∀ p x, lib.at? d p = some x → p.length < fuel) :
    (mergeClasses fuel c d).Returns lib fun _ next => next = lib := by
  induction fuel generalizing c d with
  | zero => exact absurd (deep [] d rfl) (Nat.lt_irrefl 0)
  | succ fuel ih =>
    unfold mergeClasses
    rw [Returns, bind_classOf, ensures_bind]
    refine ensures_forIn _ _ _ (fun _ _ now => now = lib) rfl ?_ fun _ _ same => .pure same
    rintro done ⟨k, e⟩ rest ⟨⟩ _ all rfl
    have found := find?_of_mem _ (keys d (.self _ d)) k e (all ▸ by simp)
    have here := covered [k] (by rw [at?_single, found]; rfl)
    rw [at?_single, Option.isSome_iff_exists] at here
    obtain ⟨b, here⟩ := here
    rw [bind_classOf]
    simp only [here]
    refine Ensures.bind (ih b e (fun x below => keys x (below.child found)) (fun p reached => ?_) fun p x reached => ?_)
      fun _ _ same => .pure same
    · rw [← at?_cons here]
      exact covered (k :: p) (by rwa [at?_cons found])
    · exact Nat.lt_of_succ_lt_succ (deep (k :: p) x ((at?_cons found p).trans reached))

theorem linkParents_idle (fuel : Nat) (c : ClassId) (nest : lib.Nest c) (linked : Linked lib c lib)
    (deep : ∀ p x, lib.at? c p = some x → p.length < fuel) :
    (Define.linkParents fuel c).Returns lib fun _ next => next = lib := by
  induction fuel generalizing c with
  | zero => exact absurd (deep [] c rfl) (Nat.lt_irrefl 0)
  | succ fuel ih =>
    unfold Define.linkParents
    rw [Returns, bind_classOf, ensures_bind]
    refine ensures_forIn _ _ _ (fun _ _ now => now = lib) rfl ?_ fun _ _ same => .pure same
    rintro done e rest ⟨⟩ now all rfl
    have member : e ∈ (now.classOf c).classes.values := all ▸ by simp
    obtain ⟨k, found⟩ := below_of_value nest member
    rw [bind_updateClass, modifyClass_eq_self _ _ _ (by rw [← linked c (.self _ c) e member])]
    refine Ensures.bind (ih e (nest.child found) (fun x below => linked x (below.child found)) fun p x reached => ?_)
      fun _ _ same => .pure same
    exact Nat.lt_of_succ_lt_succ (deep (k :: p) x ((at?_cons found p).trans reached))

theorem extend_idle (nest : lib.Nest c) (linked : Linked lib c lib)
    (keys : ∀ x, lib.Below d x → (lib.classOf x).classes.keys.Nodup) (within : Within lib c d) :
    extend c d lib = .ok () lib := by
  have deep : ∀ p x, lib.at? c p = some x → p.length < lib.classes.size + 1 := fun p x found =>
    Nat.lt_succ_of_lt (nest.length_lt found)
  refine Returns.eq ?_
  unfold extend
  rw [Returns, bind_get]
  refine Ensures.bind (mergeClasses_idle _ c d keys (fun p reached => ?_) fun p x found => ?_) ?_
  · obtain ⟨y, found⟩ := Option.isSome_iff_exists.1 reached
    obtain ⟨x, here, -⟩ := within p y found
    rw [here]
    rfl
  · obtain ⟨y, here, -⟩ := within p x found
    exact deep p y here
  · rintro ⟨⟩ _ rfl
    exact (linkParents_idle _ c nest linked deep).mono fun _ _ same => ⟨rfl, same⟩

end Again

def extendAll (root : ClassId) (others : List ClassId) : Build Unit := do
  for other in others do extend root other

theorem Grafted.within {next : Library} (grafted : Grafted lib c d next) {r : ClassId} (each : ∀ p y, lib.at? r p = some y →
    ∃ x, next.at? c p = some x ∧ (x = y ∨ ¬ next.Below c y)) :
    Within next c r ∧ ∀ y, next.Below r y → next.Below c y ∨ lib.Below r y := by
  have outside : ∀ y, ¬ next.Below c y → ¬ lib.Below c y := by
    rintro y none ⟨q, here⟩
    exact none ⟨q, by rw [grafted.at?, here, Option.some_or]⟩
  -- A class below the other one is now at its path below the first, or it is where it was.
  have split : ∀ p y, next.at? r p = some y → next.at? c p = some y ∨ lib.at? r p = some y := by
    intro p
    induction p using List.reverseRecOn with
    | nil => exact fun y found => .inr found
    | append_singleton p k ih =>
      intro y found
      obtain ⟨z, above, found⟩ := at?_last found
      obtain here | before := ih z above
      · exact .inl ((at?_snoc here).trans found)
      · obtain ⟨x, here, rfl | none⟩ := each p z before
        · exact .inl ((at?_snoc here).trans found)
        · rw [grafted.tables z (outside z none)] at found
          exact .inr ((at?_snoc before).trans found)
  refine ⟨fun p y found => ?_, fun y below => ?_⟩
  · obtain here | before := split p y found
    · exact ⟨y, here, .inl rfl⟩
    · exact each p y before
  · obtain ⟨p, found⟩ := below
    exact (split p y found).imp (⟨p, ·⟩) (⟨p, ·⟩)

section Load

variable {root other : ClassId} {done : List ClassId} {now next : Library}

structure Loading (lib : Library) (root : ClassId) (done : List ClassId) (now : Library) : Prop where
  rearranged : lib.Rearranged (fun x => ∃ r ∈ root :: done, lib.Below r x) now
  nest : now.Nest root
  at? : ∀ p, now.at? root p = (root :: done).findSome? (lib.at? · p)
  linked : Linked now root now
  within : ∀ r ∈ root :: done, Within now root r
  below : ∀ r ∈ root :: done, ∀ x, now.Below r x → ∃ s ∈ root :: done, lib.Below s x
  keys : ∀ p, now.keysAt root p = ((root :: done).map (lib.keysAt · p)).foldl addNew []

theorem Loading.start (nest : lib.Nest root) (linked : Linked lib root lib) : Loading lib root [] lib where
  rearranged := .refl lib _
  nest := nest
  at? p := by rw [List.findSome?_singleton]
  linked := linked
  within r member p y found := by
    cases List.mem_singleton.1 member
    exact ⟨y, found, .inl rfl⟩
  below r member x below := ⟨r, member, below⟩
  keys p := by simp [addNew]

variable (loading : Loading lib root done now)
include loading

theorem Loading.again (member : other ∈ root :: done) : Loading lib root (done ++ [other]) now := by
  have more : ∀ x, (∃ r ∈ root :: done, lib.Below r x) → ∃ r ∈ root :: (done ++ [other]), lib.Below r x := by
    rintro x ⟨r, listed, below⟩
    exact ⟨r, mem_append_left [other] listed, below⟩
  have known : ∀ r ∈ root :: (done ++ [other]), r ∈ root :: done := by
    intro r listed
    rw [← cons_append, mem_append, mem_singleton] at listed
    exact listed.elim id fun same => same ▸ member
  obtain ⟨rearranged, nest, at?, linked, within, below, keys⟩ := loading
  refine ⟨rearranged.mono more, nest, fun p => ?_, linked, fun r listed => within r (known r listed),
    fun r listed x inside => more x (below r (known r listed) x inside), fun p => ?_⟩
  · rw [at?, ← cons_append, List.findSome?_append, List.findSome?_singleton]
    cases found : (root :: done).findSome? (lib.at? · p) with
    | some x => rfl
    | none => rw [List.findSome?_eq_none_iff.1 found other member, Option.none_or]
  · -- the names of the tree are there already
    have seen : ∀ k ∈ lib.keysAt other p, k ∈ now.keysAt root p := by
      intro k
      rw [mem_keysAt, mem_keysAt, at?, List.findSome?_isSome_iff]
      exact fun found => ⟨other, member, found⟩
    rw [← cons_append, map_append, List.foldl_append, ← keys p]
    simpa [addNew] using seen

theorem Loading.keys_nodup (nests : ∀ r ∈ root :: done, lib.Nest r) (member : other ∈ root :: done) (x : ClassId)
    (inside : now.Below other x) : (now.classOf x).classes.keys.Nodup := by
  obtain ⟨s, listed, below⟩ := loading.below other member x inside
  exact loading.rearranged.keys x ((nests s listed).keys x below)

variable (apart : ∀ r ∈ root :: done, ∀ x, lib.Below r x → ¬ lib.Below other x)
include apart

theorem Loading.at?_other (p : List (Option String)) : now.at? other p = lib.at? other p := by
  refine loading.rearranged.at?_eq (fun x inside touched => ?_) p
  obtain ⟨r, member, below⟩ := touched
  exact apart r member x below inside

theorem Loading.disjoint (r : ClassId) (member : r ∈ root :: done) {x : ClassId} (below : now.Below r x) :
    ¬ now.Below other x := by
  rintro ⟨q, there⟩
  obtain ⟨s, listed, inside⟩ := loading.below r member x below
  exact apart s listed x inside ⟨q, (loading.at?_other apart q).symm.trans there⟩

theorem Loading.keysAt_other (p : List (Option String)) : now.keysAt other p = lib.keysAt other p := by
  rw [keysAt, keysAt, loading.at?_other apart]
  cases found : lib.at? other p with
  | none => rfl
  | some y =>
    refine congrArg (·.classes.keys) (loading.rearranged.others y ?_)
    rintro ⟨r, member, below⟩
    exact apart r member y below ⟨p, found⟩

theorem Loading.enter (second : lib.Nest other) (grafted : Grafted now root other next) :
    Loading lib root (done ++ [other]) next := by
  have paths := loading.at?_other apart
  have disjoint := loading.disjoint apart
  have nest := loading.rearranged.nest second paths
  have below : ∀ x, next.Below root x → now.Below root x ∨ now.Below other x := by
    rintro x ⟨q, new⟩
    rw [grafted.at?] at new
    obtain here | ⟨-, here⟩ := Option.or_eq_some_iff.1 new
    · exact .inl ⟨q, here⟩
    · exact .inr ⟨q, here⟩
  have from_ : ∀ r ∈ root :: done, ∀ x, now.Below r x → ∃ s ∈ root :: (done ++ [other]), lib.Below s x := by
    intro r member x inside
    obtain ⟨s, listed, there⟩ := loading.below r member x inside
    exact ⟨s, mem_append_left [other] listed, there⟩
  have new : ∀ x, now.Below other x → ∃ s ∈ root :: (done ++ [other]), lib.Below s x := by
    rintro x ⟨q, there⟩
    exact ⟨other, by simp, q, (paths q).symm.trans there⟩
  have within : ∀ r ∈ root :: (done ++ [other]), Within next root r ∧
      ∀ y, next.Below r y → next.Below root y ∨ now.Below r y := by
    intro r listed
    refine grafted.within fun p y found => ?_
    rw [← cons_append, mem_append, mem_singleton] at listed
    obtain member | rfl := listed
    · obtain ⟨x, here, same⟩ := loading.within r member p y found
      refine ⟨x, by rw [grafted.at?, here, Option.some_or], same.imp_right fun none inside => ?_⟩
      exact (below y inside).elim none (disjoint r member ⟨p, found⟩)
    · cases here : now.at? root p with
      | none => exact ⟨y, by rw [grafted.at?, here, found, Option.none_or], .inl rfl⟩
      | some x =>
        refine ⟨x, by rw [grafted.at?, here, Option.some_or], .inr ?_⟩
        rintro ⟨q, there⟩
        rw [grafted.at?] at there
        obtain there | ⟨none, there⟩ := Option.or_eq_some_iff.1 there
        · exact disjoint root mem_cons_self ⟨q, there⟩ ⟨p, found⟩
        · rw [nest.once q p y there found, here] at none
          cases none
  refine ⟨(loading.rearranged.mono ?_).trans grafted.rearranged ?_, grafted.nest, fun p => ?_, grafted.linked,
    fun r listed => (within r listed).1, fun r listed x inside => ?_, fun p => ?_⟩
  · rintro x ⟨r, member, inside⟩
    exact ⟨r, mem_append_left [other] member, inside⟩
  · rintro x (inside | inside)
    · exact from_ root mem_cons_self x inside
    · exact new x inside
  · rw [grafted.at?, loading.at?, paths, ← cons_append, List.findSome?_append, List.findSome?_singleton]
  · obtain top | inside := (within r listed).2 x inside
    · exact (below x top).elim (from_ root mem_cons_self x) (new x)
    · rw [← cons_append, mem_append, mem_singleton] at listed
      obtain member | rfl := listed
      · exact from_ r member x inside
      · exact new x inside
  · rw [← cons_append, map_append, List.foldl_append, ← loading.keys p, List.map_singleton,
      List.foldl_cons, List.foldl_nil, ← loading.keysAt_other apart p]
    cases here : now.at? root p with
    | some x =>
      rw [keysAt, keysAt, grafted.at?, here, Option.some_or]
      exact grafted.keys p x here
    | none =>
      have nothing : now.keysAt root p = [] := by
        rw [keysAt, here]
        rfl
      rw [nothing, keysAt, keysAt, grafted.at?, here, Option.none_or]
      cases found : now.at? other p with
      | none => rfl
      | some y =>
        have same := grafted.tables y fun inside => disjoint root mem_cons_self inside ⟨p, found⟩
        simp [addNew, same]

end Load

section

variable {root : ClassId} {others : List ClassId} (nests : ∀ r ∈ root :: others, lib.Nest r)
include nests

theorem extendAll_loads
    (apart : ∀ r ∈ root :: others, ∀ s ∈ root :: others, r ≠ s → ∀ x, lib.Below r x → ¬ lib.Below s x)
    (linked : Linked lib root lib) :
    (extendAll root others).Returns lib fun _ next => Loading lib root others next := by
  unfold extendAll
  rw [Returns, ensures_bind]
  refine ensures_forIn _ _ _ (fun done _ now => Loading lib root done now)
    (.start (nests root mem_cons_self) linked) ?_ fun _ _ loading => .pure loading
  rintro done other rest ⟨⟩ now rfl loading
  have before : ∀ r ∈ root :: done, r ∈ root :: (done ++ other :: rest) := fun r => mem_append_left _
  have nest := nests other (by simp)
  by_cases member : other ∈ root :: done
  · have idle := extend_idle loading.nest loading.linked
      (loading.keys_nodup (fun r listed => nests r (before r listed)) member) (loading.within other member)
    exact (ensures_bind _ _).2 ((ensures_of_eq idle).2 (.pure (loading.again member)))
  · have apart : ∀ r ∈ root :: done, ∀ x, lib.Below r x → ¬ lib.Below other x := fun r listed =>
      apart r (before r listed) other (by simp) fun same => member (same ▸ listed)
    refine Ensures.bind (extend_merges loading.nest (loading.rearranged.nest nest (loading.at?_other apart))
      fun x => loading.disjoint apart root mem_cons_self) fun _ next grafted => ?_
    exact .pure (loading.enter apart nest grafted)

theorem extendAll_first
    (apart : (root :: others).Pairwise fun r s => ∀ x, lib.Below r x → ¬ lib.Below s x)
    (linked : Linked lib root lib) : (extendAll root others).Returns lib fun _ next =>
      lib.Rearranged (fun x => ∃ r ∈ root :: others, lib.Below r x) next ∧
      (∀ p, next.at? root p = (root :: others).findSome? (lib.at? · p)) ∧ Linked next root next := by
  have symmetric : Std.Symm fun r s => ∀ x, lib.Below r x → ¬ lib.Below s x := ⟨fun _ _ no x here there => no x there here⟩
  exact (extendAll_loads nests (fun _ first _ second => apart.forall first second) linked).mono
    fun _ _ loading => ⟨loading.rearranged, loading.at?, loading.linked⟩

end

end Build

namespace Library

-- The library as reading files leaves it: each class has around it the one class that it is in.
structure Ordered (lib : Library) : Prop where
  classes : ∀ i < lib.classes.size, (lib.classOf ⟨i⟩).classes.keys.Nodup ∧
    (lib.classOf ⟨i⟩).classes.values.Nodup ∧
    ∀ e ∈ (lib.classOf ⟨i⟩).classes.values, e.index < lib.classes.size ∧
      (lib.classOf e).parent = some ⟨i⟩

instance (lib : Library) : Decidable lib.Ordered :=
  decidable_of_iff _ ⟨fun classes => ⟨classes⟩, fun ordered => ordered.classes⟩

def IsRoot (lib : Library) (r : ClassId) : Prop :=
  r.index < lib.classes.size ∧ (lib.classOf r).parent = none

instance (lib : Library) (r : ClassId) : Decidable (lib.IsRoot r) :=
  inferInstanceAs (Decidable (_ ∧ _))

variable {lib : Library} (ordered : lib.Ordered)

include ordered

variable {c x r : ClassId}

theorem Ordered.at?_known (known : c.In lib) (p : List (Option String))
    (found : lib.at? c p = some x) : x.In lib := by
  induction p generalizing c with
  | nil =>
    cases found
    exact known
  | cons k p ih =>
    obtain ⟨e, here, rest⟩ := Option.bind_eq_some_iff.1 found
    have member : e ∈ (lib.classOf c).classes.values := mem_values_of_find? here
    exact ih ((ordered.classes c.index known).2.2 e member).1 rest

theorem Ordered.parent {y : ClassId} {k : Option String} (known : x.In lib)
    (found : (lib.classOf x).classes.find? k = some y) : (lib.classOf y).parent = some x :=
  ((ordered.classes x.index known).2.2 y (mem_values_of_find? found)).2

theorem Ordered.unique {s : ClassId} (first : lib.IsRoot r) (second : lib.IsRoot s)
    (p q : List (Option String)) (here : lib.at? r p = some x) (there : lib.at? s q = some x) : r = s ∧ p = q := by
  refine at?_unique (fun x ⟨p, found⟩ => ordered.at?_known first.1 p found)
    (fun x ⟨q, found⟩ => ordered.at?_known second.1 q found) (fun x known k => ⟨fun found => ?_, fun found => ?_⟩)
    (fun x y known known' j k e found found' => ?_) p q here there
  · cases first.2.symm.trans (ordered.parent known found)
  · cases second.2.symm.trans (ordered.parent known found)
  · obtain rfl := Option.some.inj ((ordered.parent known found).symm.trans (ordered.parent known' found'))
    have same := List.inj_on_of_nodup_map (ordered.classes x.index known).2.1
      (mem_entries_of_find? _ _ _ found) (mem_entries_of_find? _ _ _ found') rfl
    exact ⟨rfl, (Prod.mk.inj same).1⟩

theorem Ordered.nest (root : lib.IsRoot r) : lib.Nest r where
  known x below := by
    obtain ⟨p, found⟩ := below
    exact ordered.at?_known root.1 p found
  keys x below := by
    obtain ⟨p, found⟩ := below
    exact (ordered.classes x.index (ordered.at?_known root.1 p found)).1
  once p q _ here there := (ordered.unique root root p q here there).2

theorem Ordered.linked (root : lib.IsRoot r) : Build.Linked lib r lib := by
  rintro x ⟨p, found⟩ y value
  exact ((ordered.classes x.index (ordered.at?_known root.1 p found)).2.2 y value).2

end Library

-- A package that stands for the clause of a file that says where the file belongs: it has a name and classes
-- inside, and nothing else.
def ClassDef.Placeholder (d : ClassDef) : Prop :=
  d = { name := d.name, type := "package", classes := d.classes, parent := d.parent, origin := d.origin }

namespace Build

open Library

-- In whatever order files are combined that define each class at most once, there is a class at a path if some
-- file has one there, with its content as it was. It is the one that is defined there if no file before has a
-- placeholder at the path. Otherwise it is the placeholder, and the definition is lost.
theorem extendAll_order {lib : Library} (ordered : lib.Ordered) {root : ClassId} {others : List ClassId}
    (roots : ∀ r ∈ root :: others, lib.IsRoot r) (distinct : (root :: others).Nodup)
    (single : ∀ p, p ≠ [] → ∀ r ∈ root :: others, ∀ s ∈ root :: others, ∀ x y,
      lib.at? r p = some x → lib.at? s p = some y → ¬ (lib.classOf x).Placeholder →
      ¬ (lib.classOf y).Placeholder → r = s) :
    ∃ next, extendAll root others lib = .ok () next ∧
      (∀ p, (next.at? root p).isSome ↔ ∃ r ∈ root :: others, (lib.at? r p).isSome) ∧
      (∀ c, ∃ classes parent,
        next.classOf c = { lib.classOf c with classes := classes, parent := parent }) ∧
      next.symbols = lib.symbols ∧ next.modifications = lib.modifications ∧
      next.arguments = lib.arguments ∧
      (∀ p k x y, next.at? root p = some x → next.at? root (p ++ [k]) = some y →
        (next.classOf y).parent = some x) ∧
      ∀ before r after p x, root :: others = before ++ r :: after → p ≠ [] → lib.at? r p = some x →
        ¬ (lib.classOf x).Placeholder →
        ((∀ s ∈ before, lib.at? s p = none) → next.at? root p = some x) ∧
        ((∃ s ∈ before, (lib.at? s p).isSome) →
          ∃ y, next.at? root p = some y ∧ (next.classOf y).Placeholder) := by
  have apart : (root :: others).Pairwise fun r s => ∀ x, lib.Below r x → ¬ lib.Below s x := by
    refine distinct.imp_of_mem fun {r s} first second differ => ?_
    rintro x ⟨p, here⟩ ⟨q, there⟩
    exact differ (ordered.unique (roots r first) (roots s second) p q here there).1
  obtain ⟨⟨⟩, next, run, rearranged, first, linked⟩ := (extendAll_first
    (fun r member => ordered.nest (roots r member)) apart
    (ordered.linked (roots root List.mem_cons_self))).exists
  refine ⟨next, run, fun p => ?_, rearranged.content, rearranged.symbols, rearranged.modifications,
    rearranged.arguments, fun p k x y above found => ?_, fun before r after p x all below here defined =>
    ⟨fun absent => ?_, fun present => ?_⟩⟩
  · rw [first, List.findSome?_isSome_iff]
  · rw [at?_append, above, Option.bind_some, at?_single] at found
    exact linked x ⟨p, above⟩ y (List.mem_map_of_mem (OrderedMap.mem_entries_of_find? _ _ _ found))
  · rw [first, all, List.findSome?_append, List.findSome?_eq_none_iff.2 absent, Option.none_or,
      List.findSome?_cons, here]
  · obtain ⟨y, found⟩ := Option.isSome_iff_exists.1 (List.findSome?_isSome_iff.2 present)
    obtain ⟨s, member, there⟩ := List.exists_of_findSome?_eq_some found
    refine ⟨y, by rw [first, all, List.findSome?_append, found, Option.some_or], ?_⟩
    -- a file before that defines the class as well would be the same file
    have placeholder : (lib.classOf y).Placeholder := by
      by_contra other
      have same := single p below r (by simp [all]) s (by simp [all, member]) x y here there defined other
      rw [all, List.nodup_append] at distinct
      exact distinct.2.2 s member r (by simp) same.symm
    obtain ⟨classes, parent, content⟩ := rearranged.content y
    rw [content]
    unfold ClassDef.Placeholder at placeholder ⊢
    rw [placeholder]

-- Two files: one has a model within the package `P`, the other the package with a constant.
def twoFiles : Library where
  classes := #[
    { classes := ⟨[(some "P", ⟨1⟩)]⟩, role := .root, origin := ⟨0⟩ },
    { name := some "P", type := "package", classes := ⟨[(some "A", ⟨2⟩)]⟩, parent := some ⟨0⟩,
      origin := ⟨1⟩ },
    { name := some "A", type := "model", parent := some ⟨1⟩, origin := ⟨2⟩ },
    { classes := ⟨[(some "P", ⟨4⟩)]⟩, role := .root, origin := ⟨3⟩ },
    { name := some "P", type := "package", symbols := ⟨[("c", ⟨0⟩)]⟩, parent := some ⟨3⟩,
      origin := ⟨4⟩ }]
  symbols := #[{ name := "c", type := .named (.simple "Real"), prefixes := ["constant"] }]
  modifications := #[]
  arguments := #[]

theorem twoFiles_placeholder : ∃ next y, extendAll ⟨0⟩ [⟨3⟩] twoFiles = .ok () next ∧
    next.at? ⟨0⟩ [some "P"] = some y ∧ (next.classOf y).Placeholder := by
  have defined : ¬ (twoFiles.classOf ⟨4⟩).Placeholder := by
    intro placeholder
    have symbols := congrArg (fun d => d.symbols.keys) placeholder
    exact absurd symbols (by decide)
  have shallow : ∀ p y, p ≠ [] → twoFiles.at? ⟨3⟩ p = some y → p = [some "P"] := by
    rintro (_ | ⟨k, _ | ⟨j, q⟩⟩) y nonempty found
    · contradiction
    all_goals
      obtain ⟨e, first, rest⟩ := Option.bind_eq_some_iff.1 found
      cases List.mem_singleton.1 (OrderedMap.mem_entries_of_find? _ _ _ first)
    · rfl
    · obtain ⟨d, second, -⟩ := Option.bind_eq_some_iff.1 rest
      cases OrderedMap.mem_entries_of_find? _ _ _ second
  have within : ∀ p x y, p ≠ [] → twoFiles.at? ⟨0⟩ p = some x → twoFiles.at? ⟨3⟩ p = some y →
      (twoFiles.classOf x).Placeholder := by
    intro p x y nonempty here there
    obtain rfl := shallow p y nonempty there
    obtain rfl : x = ⟨1⟩ := Option.some.inj (here.symm.trans (by decide))
    rfl
  have single : ∀ p, p ≠ [] → ∀ r ∈ [⟨0⟩, ⟨3⟩], ∀ s ∈ [⟨0⟩, ⟨3⟩], ∀ x y,
      twoFiles.at? r p = some x → twoFiles.at? s p = some y → ¬ (twoFiles.classOf x).Placeholder →
      ¬ (twoFiles.classOf y).Placeholder → r = s := by
    intro p nonempty r first s second x y here there definedX definedY
    rw [List.mem_pair] at first second
    obtain rfl | rfl := first <;> obtain rfl | rfl := second
    · rfl
    · exact absurd (within p x y nonempty here there) definedX
    · exact absurd (within p y x nonempty there here) definedY
    · rfl
  have ordered : twoFiles.Ordered := by decide
  have roots : ∀ r ∈ [⟨0⟩, ⟨3⟩], twoFiles.IsRoot r := by decide
  obtain ⟨next, run, -, -, -, -, -, -, order⟩ := extendAll_order ordered roots (by decide) single
  obtain ⟨y, found, placeholder⟩ := (order [⟨0⟩] ⟨3⟩ [] [some "P"] ⟨4⟩ rfl (by decide) (by decide)
    defined).2 ⟨⟨0⟩, by decide, by decide⟩
  exact ⟨next, y, run, found, placeholder⟩

-- The package has its constant or not, depending on the file that is loaded first.
theorem twoFiles_order_matters :
    (∃ next c, extendAll ⟨3⟩ [⟨0⟩] twoFiles = .ok () next ∧ next.at? ⟨3⟩ [some "P"] = some c ∧
      (next.classOf c).symbols.keys = ["c"] ∧ (next.classOf c).classes.keys = [some "A"]) ∧
    ∃ next c, extendAll ⟨0⟩ [⟨3⟩] twoFiles = .ok () next ∧ next.at? ⟨0⟩ [some "P"] = some c ∧
      (next.classOf c).symbols.keys = [] ∧ (next.classOf c).classes.keys = [some "A"] := by
  have load : ∀ root others names, (extendAll root others).passes twoFiles (fun _ next =>
      (next.at? root [some "P"]).any fun c => decide ((next.classOf c).symbols.keys = names ∧
        (next.classOf c).classes.keys = [some "A"])) = true →
      ∃ next c, extendAll root others twoFiles = .ok () next ∧ next.at? root [some "P"] = some c ∧
        (next.classOf c).symbols.keys = names ∧ (next.classOf c).classes.keys = [some "A"] := by
    intro root others names passes
    obtain ⟨⟨⟩, next, run, found⟩ := exists_of_passes _ twoFiles _ passes
    obtain ⟨c, at_, holds⟩ := (Option.any_eq_true _ _).1 found
    exact ⟨next, c, run, at_, of_decide_eq_true holds⟩
  exact ⟨load ⟨3⟩ [⟨0⟩] ["c"] (by decide), load ⟨0⟩ [⟨3⟩] [] (by decide)⟩

end Build

end Modelica
