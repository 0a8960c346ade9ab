import Mathlib.Data.Finset.Card
import Modelica.Proofs.Library.Origins

set_option autoImplicit false

namespace Modelica.Library

open OrderedMap

variable {hidden : Hidden} {lib next : Library}

section Chain

def follow (step : ClassId → Option ClassId) (c : ClassId) : Nat → Option ClassId
  | 0 => some c
  | n + 1 => (follow step c n).bind step

section

variable (step : ClassId → Option ClassId)

theorem follow_add (c d : ClassId) (i n : Nat) (here : follow step c i = some d) :
    follow step c (i + n) = follow step d n := by
  induction n with
  | zero => exact here
  | succ n ih =>
    show (follow step c (i + n)).bind _ = (follow step d n).bind _
    rw [ih]

theorem follow_none (c : ClassId) {i n : Nat} (before : i ≤ n) (ended : follow step c i = none) :
    follow step c n = none := by
  induction n, before using Nat.le_induction with
  | base => exact ended
  | succ n _ ih =>
    show (follow step c n).bind _ = none
    rw [ih]
    rfl

theorem follow_near (c : ClassId) (size : Nat)
    (inside : ∀ i d, follow step c i = some d → d.index < size) (i : Nat) (e : ClassId)
    (found : follow step c i = some e) : ∃ j < size, follow step c j = some e := by
  induction i using Nat.strongRecOn with
  | _ i ih =>
    by_cases near : i < size
    · exact ⟨i, near, found⟩
    -- two of the classes on the way are the same, and the way between them can be left out
    have passed : ∀ t ≤ i, ∃ d, follow step c t = some d ∧ d.index < size := by
      intro t before
      cases there : follow step c t with
      | some d => exact ⟨d, rfl, inside t d there⟩
      | none =>
        rw [follow_none step c before there] at found
        cases found
    have twice : ∃ s ∈ Finset.range (size + 1), ∃ t ∈ Finset.range (size + 1),
        s ≠ t ∧ ((follow step c s).getD c).index = ((follow step c t).getD c).index := by
      refine Finset.exists_ne_map_eq_of_card_lt_of_maps_to (t := Finset.range size) (by simp) fun t member => ?_
      rw [Finset.coe_range, Set.mem_Iio] at member
      obtain ⟨d, there, less⟩ := passed t (by omega)
      rw [there]
      simpa using less
    obtain ⟨s, first, t, second, differ, same⟩ := twice
    wlog less : s < t generalizing s t
    · exact this t second s first differ.symm same.symm (by omega)
    rw [Finset.mem_range] at first second
    obtain ⟨d, thereS, _⟩ := passed s (by omega)
    obtain ⟨d', thereT, _⟩ := passed t (by omega)
    obtain rfl : d = d' := by
      rw [thereS, thereT] at same
      cases d
      cases d'
      exact congrArg ClassId.mk same
    refine ih (s + (i - t)) (by omega) ?_
    rw [follow_add step c d s _ thereS, ← follow_add step c d t _ thereT, Nat.add_sub_cancel' (by omega)]
    exact found

end

def outward (lib : Library) (c : ClassId) : Nat → Option ClassId
  | 0 => some c
  | n + 1 => (lib.outward c n).bind fun d => (lib.classOf d).parent

theorem outward_eq_follow (lib : Library) (c : ClassId) (n : Nat) :
    lib.outward c n = follow (fun d => (lib.classOf d).parent) c n := by
  induction n with
  | zero => rfl
  | succ n ih =>
    show (lib.outward c n).bind _ = _
    rw [ih]
    rfl

theorem outward_add (lib : Library) (c d : ClassId) (i n : Nat) (here : lib.outward c i = some d) :
    lib.outward c (i + n) = lib.outward d n := by
  rw [outward_eq_follow] at here
  rw [outward_eq_follow, outward_eq_follow, follow_add _ c d i n here]

theorem mem_chain_iff (lib : Library) (n : Nat) (c e : ClassId) :
    e ∈ lib.chain n c ↔ ∃ i < n, lib.outward c i = some e := by
  induction n generalizing c with
  | zero => simp [chain]
  | succ n ih =>
    have later : ∀ i, lib.outward c (i + 1) = ((lib.classOf c).parent).bind (lib.outward · i) := by
      intro i
      cases has : (lib.classOf c).parent with
      | none =>
        induction i with
        | zero => exact has
        | succ i ih =>
          show (lib.outward c (i + 1)).bind _ = none
          rw [ih]
          rfl
      | some p =>
        rw [Nat.add_comm i 1, lib.outward_add c p 1 i has]
        rfl
    unfold chain
    rw [List.mem_cons]
    constructor
    · rintro (rfl | member)
      · exact ⟨0, Nat.succ_pos n, rfl⟩
      · cases has : (lib.classOf c).parent with
        | none =>
          rw [has] at member
          contradiction
        | some p =>
          rw [has] at member
          obtain ⟨i, less, found⟩ := (ih p).1 member
          exact ⟨i + 1, Nat.succ_lt_succ less, by rw [later, has]; exact found⟩
    · rintro ⟨_ | i, less, found⟩
      · cases found
        exact .inl rfl
      · rw [later] at found
        cases has : (lib.classOf c).parent with
        | none =>
          rw [has] at found
          cases found
        | some p =>
          rw [has] at found
          exact .inr ((ih p).2 ⟨i, Nat.lt_of_succ_lt_succ less, found⟩)

section

variable (closed : lib.Closed) (c : ClassId) (known : c.index < lib.classes.size) (i : Nat)
  (e : ClassId) (found : lib.outward c i = some e)
include closed c known i e found

theorem outward_known : e.In lib := by
  cases i with
  | zero =>
    cases found
    exact known
  | succ i =>
    obtain ⟨d, _, has⟩ := Option.bind_eq_some_iff.1 found
    exact ((closed d).parent e has).1

theorem outward_near : ∃ j < lib.classes.size, lib.outward c j = some e := by
  simp only [outward_eq_follow] at found ⊢
  refine follow_near _ c _ (fun i d there => ?_) i e found
  exact outward_known closed c known i d ((lib.outward_eq_follow c i).trans there)

end

theorem chain_prefix (lib : Library) (n m : Nat) (c : ClassId) :
    ∃ more, lib.chain (n + m) c = lib.chain n c ++ more := by
  induction n generalizing c with
  | zero => exact ⟨_, rfl⟩
  | succ n ih =>
    rw [Nat.add_right_comm]
    unfold chain
    split
    · exact ⟨[], by simp⟩
    · next p _ =>
      obtain ⟨more, all⟩ := ih p
      exact ⟨more, by rw [all, List.cons_append]⟩

theorem findSome?_chain {β : Type} (closed : lib.Closed) (c : ClassId)
    (known : c.In lib) (f : ClassId → Option β) (n : Nat) (all : lib.classes.size ≤ n) :
    (lib.chain n c).findSome? f = (lib.chain lib.classes.size c).findSome? f := by
  obtain ⟨more, split⟩ := lib.chain_prefix lib.classes.size (n - lib.classes.size) c
  rw [Nat.add_sub_cancel' all] at split
  rw [split, List.findSome?_append]
  cases found : (lib.chain lib.classes.size c).findSome? f with
  | some b => rfl
  | none =>
    rw [List.findSome?_eq_none_iff] at found
    rw [Option.none_or, List.findSome?_eq_none_iff]
    intro e member
    have further : e ∈ lib.chain n c := split ▸ List.mem_append_right _ member
    obtain ⟨i, _, there⟩ := (lib.mem_chain_iff n c e).1 further
    exact found e ((lib.mem_chain_iff _ c e).2 (outward_near closed c known i e there))

end Chain

section Lookup

theorem descend_congr {P : ClassId → Prop} (same : ∀ c, P c → (next.classOf c).classes = (lib.classOf c).classes)
    (inner : ∀ c e, P c → e ∈ (lib.classOf c).classes.values → P e) (names : List String) (c : ClassId) (start : P c) :
    next.descend c names = lib.descend c names := by
  induction names generalizing c with
  | nil => rfl
  | cons name rest ih =>
    unfold descend
    rw [same c start]
    split
    · rfl
    · next e found => exact ih e (inner c e start (mem_values_of_find? found))

theorem both_of_map_eq {α β : Type} {f : α → β} {x y : Option α} (same : x.map f = y.map f) :
    x = none ∧ y = none ∨ ∃ a b, x = some a ∧ y = some b ∧ f a = f b := by
  cases x <;> cases y <;> simp_all

theorem chain_grown (closed : lib.Closed) (grown : lib.Grown next) (n : Nat) (c : ClassId)
    (known : c.In lib) : next.chain n c = lib.chain n c := by
  induction n generalizing c with
  | zero => rfl
  | succ n ih =>
    unfold chain
    rw [grown.classOf c known]
    cases has : (lib.classOf c).parent with
    | none => rfl
    | some p => exact congrArg _ (ih p ((closed c).parent p has).1)

theorem findSome?_congr {α β : Type} {f g : α → Option β} (xs : List α)
    (same : ∀ x ∈ xs, f x = g x) : xs.findSome? f = xs.findSome? g := by
  rw [← List.head?_filterMap, List.filterMap_congr same, List.head?_filterMap]

theorem findClass?_eq (closed : lib.Closed) (names : List String) (c : ClassId) :
    lib.findClass? c names = (lib.descend c names).or
      ((lib.classOf c).parent.bind fun p => lib.findClass? p names) := by
  simp only [findClass?_scan]
  unfold enclosing
  rw [chain, List.findSome?_cons]
  cases lib.descend c names with
  | some d => rfl
  | none =>
    cases has : (lib.classOf c).parent with
    | none => rfl
    | some p =>
      have known := ((closed c).parent p has).1
      show List.findSome? _ _ = List.findSome? _ _
      rw [findSome?_chain closed p known _ _ le_rfl, findSome?_chain closed p known _ _ (Nat.le_succ _)]

def brought (lib : Library) (inside : ClassId → OrderedMap (Option String) ClassId) (c : ClassId)
    (r : ComponentRef) : OrderedMap (Option String) ClassId :=
  if elementaryNames.contains r.name then .empty
  else match lib.findClass? c r.names with
    | none => .empty
    | some b => inside b

def inherited (lib : Library) (inside : ClassId → OrderedMap (Option String) ClassId) (c : ClassId)
    (bases : List ComponentRef) : OrderedMap (Option String) ClassId :=
  bases.foldl (fun seen r => seen.union (lib.brought inside c r)) .empty

-- The classes that are visible in a class: those of its bases, in order, and then its own. Each is given by
-- what it is a copy of.
def visible (lib : Library) : Nat → ClassId → OrderedMap (Option String) ClassId
  | 0, _ => .empty
  | fuel + 1, c =>
    (lib.inherited (lib.visible fuel) c (lib.classOf c).bases).union
      ((lib.classOf c).classes.mapValues lib.originOf)

theorem names_ne_nil (r : ComponentRef) : r.names ≠ [] := by
  cases r with
  | mk name subscripts child => cases child <;> simp [ComponentRef.names]

variable {inside inside' : ClassId → OrderedMap (Option String) ClassId}

theorem inherited_congr {c d : ClassId} (bases : List ComponentRef)
    (same : ∀ r, next.brought inside' d r = lib.brought inside c r) :
    next.inherited inside' d bases = lib.inherited inside c bases := by
  unfold inherited
  simp only [same]

theorem visible_congr (sizes : next.classes.size = lib.classes.size)
    (same : ∀ c, (next.classOf c).parent = (lib.classOf c).parent ∧ (next.classOf c).bases = (lib.classOf c).bases ∧
      (next.classOf c).classes = (lib.classOf c).classes ∧ next.originOf c = lib.originOf c) :
    next.visible = lib.visible := by
  have descends : ∀ names c, next.descend c names = lib.descend c names := by
    intro names
    induction names with
    | nil => exact fun _ => rfl
    | cons name rest ih =>
      intro c
      unfold descend
      rw [(same c).2.2.1]
      split
      · rfl
      · exact ih _
  have chains : ∀ n c, next.chain n c = lib.chain n c := by
    intro n
    induction n with
    | zero => exact fun _ => rfl
    | succ n ih =>
      intro c
      unfold chain
      rw [(same c).1]
      cases (lib.classOf c).parent with
      | none => rfl
      | some p => exact congrArg _ (ih p)
  have finds : ∀ c names, next.findClass? c names = lib.findClass? c names := by
    intro c names
    rw [findClass?_scan, findClass?_scan]
    unfold enclosing
    rw [sizes, chains]
    exact findSome?_congr _ fun e _ => descends names e
  have origins : next.originOf = lib.originOf := funext fun c => (same c).2.2.2
  funext fuel
  induction fuel with
  | zero => rfl
  | succ fuel ih =>
    funext c
    unfold visible
    rw [(same c).2.1, (same c).2.2.1, origins, ih]
    refine congrArg (OrderedMap.union · _) (inherited_congr _ fun r => ?_)
    unfold brought
    rw [finds]

variable (sound : lib.Sound hidden)
include sound

theorem open_descend (names : List String) (c d : ClassId)
    (some : names ≠ []) (found : lib.descend c names = .some d) : lib.Open hidden d := by
  induction names generalizing c with
  | nil => exact absurd rfl some
  | cons name rest ih =>
    unfold descend at found
    split at found
    · cases found
    · next e here =>
      cases rest with
      | nil =>
        cases found
        exact sound.nested (mem_values_of_find? here)
      | cons next rest => exact ih e nofun found

theorem open_findClass? (names : List String) (c d : ClassId)
    (some : names ≠ []) (found : lib.findClass? c names = .some d) : lib.Open hidden d := by
  rw [findClass?_scan] at found
  obtain ⟨e, _, here⟩ := List.exists_of_findSome?_eq_some found
  exact open_descend sound names e d some here

section Twins

variable {c d : ClassId} (first : c.index < lib.classes.size) (second : d.index < lib.classes.size)
  (same : lib.originOf c = lib.originOf d)
include first second same

theorem twins_of_originOf : lib.Twins (lib.classOf c) (lib.classOf d) := by
  have left := sound.twins first
  have right := sound.twins second
  rw [same] at left
  exact ⟨left.parent.trans right.parent.symm, left.bases.trans right.bases.symm, left.classes.trans right.classes.symm⟩

theorem descend_twins (names : List String) :
    (lib.descend c names).map lib.originOf = (lib.descend d names).map lib.originOf := by
  induction names generalizing c d with
  | nil => exact congrArg some same
  | cons name rest ih =>
    have entries : ((lib.classOf c).classes.find? (some name)).map lib.originOf =
        ((lib.classOf d).classes.find? (some name)).map lib.originOf := by
      rw [← find?_mapValues, ← find?_mapValues, (twins_of_originOf sound first second same).classes]
    unfold descend
    obtain ⟨inC, inD⟩ | ⟨e, e', inC, inD, origins⟩ := both_of_map_eq entries
    · rw [inC, inD]
    · rw [inC, inD]
      exact ih (sound.nested (mem_values_of_find? inC)).1 (sound.nested (mem_values_of_find? inD)).1 origins

theorem findClass?_twins (names : List String) :
    (lib.findClass? c names).map lib.originOf = (lib.findClass? d names).map lib.originOf := by
  rw [findClass?_eq sound.closed, findClass?_eq sound.closed names d, (twins_of_originOf sound first second same).parent,
    Option.map_or, Option.map_or, descend_twins sound first second same names]

theorem visible_twins (fuel : Nat) : lib.visible fuel c = lib.visible fuel d := by
  induction fuel generalizing c d with
  | zero => rfl
  | succ fuel ih =>
    have twins := twins_of_originOf sound first second same
    unfold visible
    rw [twins.classes, twins.bases]
    refine congrArg (OrderedMap.union · _) (inherited_congr _ fun r => ?_)
    unfold brought
    split
    · rfl
    obtain ⟨inC, inD⟩ | ⟨e, e', inC, inD, origins⟩ :=
      both_of_map_eq (findClass?_twins sound first second same r.names)
    · rw [inC, inD]
    · rw [inC, inD]
      exact ih (open_findClass? sound _ c e (names_ne_nil r) inC).1
        (open_findClass? sound _ d e' (names_ne_nil r) inD).1 origins

end Twins

variable (grown : lib.Grown next)
include grown

section

variable (names : List String) (c : ClassId) (known : c.index < lib.classes.size)
include names c known

theorem descend_grown : next.descend c names = lib.descend c names :=
  descend_congr (fun c known => by rw [grown.classOf c known]) (fun _ _ _ member => (sound.nested member).1) names c known

theorem findClass?_grown : next.findClass? c names = lib.findClass? c names := by
  rw [findClass?_scan, findClass?_scan]
  unfold enclosing
  have more := grown.moreClasses
  have same : ∀ e ∈ lib.chain (next.classes.size + 1) c, next.descend e names = lib.descend e names := fun e member =>
    descend_grown sound grown names e (chain_induct sound.closed.parent_known _ c e known member)
  rw [chain_grown sound.closed grown _ c known, findSome?_congr _ same,
    findSome?_chain sound.closed c known _ _ (by omega),
    findSome?_chain sound.closed c known _ (lib.classes.size + 1) (by omega)]

end

theorem brought_grown (same : ∀ e, e.In lib → inside' e = inside e) (c : ClassId)
    (known : c.In lib) (r : ComponentRef) : next.brought inside' c r = lib.brought inside c r := by
  unfold brought
  rw [findClass?_grown sound grown r.names c known]
  split
  · rfl
  split
  · rfl
  · next e found => exact same e (open_findClass? sound _ c e (names_ne_nil r) found).1

theorem visible_grown (fuel : Nat) (c : ClassId)
    (known : c.In lib) : next.visible fuel c = lib.visible fuel c := by
  induction fuel generalizing c with
  | zero => rfl
  | succ fuel ih =>
    unfold visible
    rw [grown.classOf c known, grown.mapValues _ fun e member => (sound.nested member).1]
    exact congrArg (OrderedMap.union · _) (inherited_congr _ fun r => brought_grown sound grown ih c known r)

end Lookup

end Modelica.Library
