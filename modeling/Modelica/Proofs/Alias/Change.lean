import Modelica.Proofs.Alias.SignedName
import Modelica.Proofs.OrderedMap

set_option autoImplicit false

namespace Modelica

open OrderedMap

namespace AliasRelation

open SignedName

theorem mem_join (as bs : List String) (k : String) : k ∈ join as bs ↔ k ∈ as ∨ k ∈ bs := by
  unfold join
  induction bs generalizing as with
  | nil => simp
  | cons b bs ih =>
    rw [List.foldl_cons, ih, List.mem_cons]
    by_cases known : b ∈ as
    · simp only [List.contains_iff_mem.2 known, if_true]
      constructor
      · exact Or.imp_right .inr
      · rintro (old | rfl | new)
        · exact .inl old
        · exact .inl known
        · exact .inr new
    · have new : as.contains b = false := by simpa using known
      simp only [new, Bool.false_eq_true, if_false, List.mem_append, List.mem_singleton, or_assoc]

theorem nodup_join {as : List String} (bs : List String) (single : as.Nodup) : (join as bs).Nodup := by
  unfold join
  induction bs generalizing as with
  | nil => exact single
  | cons b bs ih =>
    rw [List.foldl_cons]
    apply ih
    by_cases known : b ∈ as
    · simpa only [List.contains_iff_mem.2 known, if_true] using single
    · have new : as.contains b = false := by simpa using known
      simp only [new, Bool.false_eq_true, if_false]
      exact List.nodup_append.2 ⟨single, List.nodup_singleton b, by
        rintro k old j last rfl
        rw [List.mem_singleton] at last
        exact known (last ▸ old)⟩

theorem forIn_ok {α : Type} (xs : List α) (f : α → PUnit → Change (ForInStep PUnit))
    (g : AliasRelation → α → AliasRelation)
    (each : ∀ x ∈ xs, ∀ r, f x ⟨⟩ r = .ok (.yield ⟨⟩) (g r x)) (r : AliasRelation) :
    forIn xs PUnit.unit f r = .ok ⟨⟩ (xs.foldl g r) := by
  induction xs generalizing r with
  | nil => rfl
  | cons x xs ih =>
    rw [List.forIn_cons]
    show EStateM.bind (f x ⟨⟩) _ r = _
    unfold EStateM.bind
    rw [each x List.mem_cons_self r]
    exact ih (fun y member => each y (List.mem_cons_of_mem x member)) (g r x)

theorem bind_ok {α β : Type} {x : Change α} {f : α → Change β} {r s : AliasRelation} {a : α}
    (run : x r = .ok a s) : (x >>= f) r = f a s := by
  show EStateM.bind x f r = _
  unfold EStateM.bind
  rw [run]

theorem forIn_classes (f : String → PUnit → Change (ForInStep PUnit))
    (es : String → List (String × List String)) (ks : List String)
    (each : ∀ k ∈ ks, ∀ r : AliasRelation, f k ⟨⟩ r = .ok (.yield ⟨⟩) { r with classes := r.classes.union ⟨es k⟩ })
    (r : AliasRelation) :
    forIn ks PUnit.unit f r = .ok ⟨⟩ { r with classes := r.classes.union ⟨ks.flatMap es⟩ } := by
  rw [forIn_ok ks f _ each, ← foldl_union]
  exact congrArg _ (List.foldl_hom (fun m => { r with classes := m }) fun _ _ => rfl)

theorem forIn_canonicals (f : String → PUnit → Change (ForInStep PUnit))
    (es : String → List (String × String × Int)) (ks : List String)
    (each : ∀ k ∈ ks, ∀ r : AliasRelation,
      f k ⟨⟩ r = .ok (.yield ⟨⟩) { r with canonicals := r.canonicals.union ⟨es k⟩ })
    (r : AliasRelation) :
    forIn ks PUnit.unit f r = .ok ⟨⟩ { r with canonicals := r.canonicals.union ⟨ks.flatMap es⟩ } := by
  rw [forIn_ok ks f _ each, ← foldl_union]
  exact congrArg _ (List.foldl_hom (fun m => { r with canonicals := m }) fun _ _ => rfl)

def signOf (v : SignedName) : String × Int :=
  if v.IsPositive then (v.text, 1) else (v.negate.text, -1)

def leader (r : AliasRelation) (v : SignedName) : String × Int :=
  (r.canonicals.find? v.text).getD (signOf v)

theorem canonicalSigned_text (r : AliasRelation) (v : SignedName) : r.canonicalSigned v.text = .ok (r.leader v) := by
  unfold canonicalSigned leader
  cases r.canonicals.find? v.text with
  | some c => rfl
  | none =>
    by_cases positive : v.IsPositive <;>
      simp [signOf, positive, bind, Except.bind, pure, Except.pure]

theorem enlarge_ok (r : AliasRelation) (name : String) (members : List String) : ∃ es : List (String × List String),
      enlarge name members r = .ok () { r with classes := r.classes.union ⟨es⟩ } ∧
      ∀ e ∈ es, e.1 ∈ r.aliases name := by
  by_cases known : r.classes.contains name = true
  · refine ⟨(r.aliases name).flatMap fun v => [(v, members)], ?_, ?_⟩
    · unfold enlarge
      rw [bind_ok (x := get) (s := r) rfl, if_pos known,
        bind_ok (forIn_classes _ (fun v => [(v, members)]) _ (fun _ _ _ => rfl) r)]
      rfl
    · intro e member
      obtain ⟨v, inside, same⟩ := List.mem_flatMap.1 member
      rw [List.mem_singleton] at same
      exact same ▸ inside
  · refine ⟨[], ?_, by simp⟩
    unfold enlarge
    rw [bind_ok (x := get) (s := r) rfl, if_neg known]
    rfl

section Add

variable {r : AliasRelation} {a b : SignedName}

def either (r : AliasRelation) (a b : SignedName) : List String :=
  join (r.aliases a.text) (r.aliases b.text)

theorem find?_bothSides {α : Type} (m : OrderedMap String α) (ks : List String) (x y : α)
    (es : String → List (String × α)) (both : ∀ k e, e ∈ es k ↔ e = (k, x) ∨ e = (opposite k, y))
    (apart : ∀ k ∈ ks, opposite k ∉ ks) (signed : ∀ k ∈ ks, ∃ v : SignedName, v.text = k) (v : SignedName) :
    (v.text ∈ ks → (m.union ⟨ks.flatMap es⟩).find? v.text = some x) ∧
    (v.negate.text ∈ ks → (m.union ⟨ks.flatMap es⟩).find? v.text = some y) ∧
    (v.text ∉ ks → v.negate.text ∉ ks → (m.union ⟨ks.flatMap es⟩).find? v.text = m.find? v.text) := by
  have entry : ∀ e, e ∈ ks.flatMap es ↔ ∃ k ∈ ks, e = (k, x) ∨ e = (opposite k, y) := by
    intro e
    simp only [List.mem_flatMap, both]
  have single : ∀ e ∈ ks.flatMap es, ∀ f ∈ ks.flatMap es, e.1 = f.1 → e.2 = f.2 := by
    intro e first f second same
    obtain ⟨k, member, rfl | rfl⟩ := (entry e).1 first <;>
      obtain ⟨j, other, rfl | rfl⟩ := (entry f).1 second
    · rfl
    · have same : k = opposite j := same
      exact absurd (same ▸ member) (apart j other)
    · have same : opposite k = j := same
      exact absurd (same ▸ other) (apart k member)
    · rfl
  refine ⟨?_, ?_, ?_⟩
  · intro member
    exact find?_union_of_mem m _ single _ _ ((entry _).2 ⟨_, member, .inl rfl⟩)
  · intro member
    have back : opposite v.negate.text = v.text := congrArg text v.negate_negate
    exact find?_union_of_mem m _ single _ _ ((entry _).2 ⟨_, member, .inr (by rw [back])⟩)
  · intro outside beyond
    refine find?_union_of_not_mem m _ _ fun key => ?_
    obtain ⟨e, member, same⟩ := List.mem_map.1 key
    obtain ⟨k, inside, rfl | rfl⟩ := (entry e).1 member
    · exact outside (same ▸ inside)
    · obtain ⟨w, rfl⟩ := signed k inside
      have turned : w.negate = v := SignedName.ext same
      rw [← turned, negate_negate] at beyond
      exact beyond inside

theorem add_ok (own : b.text ∈ r.aliases b.text) (signed : ∀ k ∈ r.either a b, ∃ v : SignedName, v.text = k)
    (apart : ∀ k ∈ r.either a b, opposite k ∉ r.either a b) :
    ∃ after : AliasRelation, add a.text b.text r = .ok () after ∧ after.canonicalNames =
        (join r.canonicalNames [(r.leader a).1]).filter (· ≠ (r.leader b).1) ∧
      ∀ v : SignedName, (v.text ∈ r.either a b → after.classes.find? v.text = some (r.either a b) ∧
          after.canonicals.find? v.text = some (r.leader a)) ∧
        (v.negate.text ∈ r.either a b → after.classes.find? v.text = some (r.either a.negate b.negate) ∧
          after.canonicals.find? v.text = some ((r.leader a).1, -(r.leader a).2)) ∧
        (v.text ∉ r.either a b → v.negate.text ∉ r.either a b → after.classes.find? v.text = r.classes.find? v.text ∧
          after.canonicals.find? v.text = r.canonicals.find? v.text) := by
  obtain ⟨es, run, inside⟩ := enlarge_ok r a.text (r.either a b)
  have unchanged : ∀ k, k ∉ r.aliases a.text → (r.classes.union ⟨es⟩).find? k = r.classes.find? k := by
    intro k outside
    refine find?_union_of_not_mem _ _ _ fun key => ?_
    obtain ⟨e, member, rfl⟩ := List.mem_map.1 key
    exact outside (inside e member)
  -- the class of `a` is enlarged before the class of the negative of `b` is read
  have negative : ({ r with classes := r.classes.union ⟨es⟩ } : AliasRelation).aliases
      b.negate.text = r.aliases b.negate.text := by
    have outside : b.negate.text ∉ r.aliases a.text := fun member =>
      apart b.text ((mem_join _ _ _).2 (.inr own)) ((mem_join _ _ _).2 (.inl member))
    exact congrArg (·.getD [b.negate.text]) (unchanged _ outside)
  have negated : ∀ k ∈ r.either a b, negate k = .ok (opposite k) := by
    intro k member
    obtain ⟨v, rfl⟩ := signed k member
    exact v.negate_text
  let classEntries := fun k => [(opposite k, r.either a.negate b.negate), (k, r.either a b)]
  let canonicalEntries := fun k => [(k, r.leader a), (opposite k, ((r.leader a).1, -(r.leader a).2))]
  have classSides := find?_bothSides (r.classes.union ⟨es⟩) (r.either a b) (r.either a b)
    (r.either a.negate b.negate) classEntries (by simp [classEntries, or_comm]) apart signed
  have canonicalSides := find?_bothSides r.canonicals (r.either a b) (r.leader a)
    ((r.leader a).1, -(r.leader a).2) canonicalEntries (by simp [canonicalEntries]) apart signed
  refine ⟨{ classes := (r.classes.union ⟨es⟩).union ⟨(r.either a b).flatMap classEntries⟩
            canonicals := r.canonicals.union ⟨(r.either a b).flatMap canonicalEntries⟩
            canonicalNames := (join r.canonicalNames [(r.leader a).1]).filter (· ≠ (r.leader b).1) },
    ?_, rfl, fun v => ⟨?_, ?_, ?_⟩⟩
  · have positive : join (r.aliases a.text) (r.aliases b.text) = r.either a b := rfl
    have inverse : join (r.aliases a.negate.text) (r.aliases b.negate.text) = r.either a.negate b.negate := rfl
    unfold add
    rw [bind_ok (x := get) (s := r) rfl, negate_text, bind_ok (x := ofExcept _) (s := r) rfl,
      bind_ok (x := get) (s := r) rfl, bind_ok (x := get) (s := r) rfl, positive, bind_ok run,
      negate_text, bind_ok (x := ofExcept _) rfl, bind_ok (x := get) rfl, negative, inverse,
      bind_ok (forIn_classes _ classEntries _ (fun k member now => ?_) _),
      bind_ok (x := get) rfl, canonicalSigned_text, bind_ok (x := ofExcept _) rfl]
    · simp only
      rw [bind_ok (x := get) rfl, canonicalSigned_text, bind_ok (x := ofExcept _) rfl, bind_ok (x := modify _) rfl,
        bind_ok (forIn_canonicals _ canonicalEntries _ (fun k member now => ?_) _)]
      · rfl
      · rw [bind_ok (x := setCanonical _ _ _) rfl, negated k member]
        rfl
    · rw [negated k member]
      rfl
  · intro member
    exact ⟨(classSides _).1 member, (canonicalSides _).1 member⟩
  · intro member
    exact ⟨(classSides _).2.1 member, (canonicalSides _).2.1 member⟩
  · intro outside beyond
    have first : v.text ∉ r.aliases a.text := fun member => outside ((mem_join _ _ _).2 (.inl member))
    exact ⟨((classSides _).2.2 outside beyond).trans (unchanged _ first), (canonicalSides _).2.2 outside beyond⟩

end Add

section Remove

variable {r : AliasRelation}

theorem forget_ok {k : String} (first : k ∈ r.classes.keys) (second : k ∈ r.canonicals.keys) : forget k r =
      .ok () { r with classes := r.classes.erase k, canonicals := r.canonicals.erase k } := by
  unfold forget
  rw [bind_ok (x := get) rfl]
  simp only [(r.classes.contains_iff k).2 first, if_true]
  rw [bind_ok (x := modify _) rfl, bind_ok (x := get) rfl]
  simp only [(r.canonicals.contains_iff k).2 second, if_true]
  rfl

theorem forgetAll_ok {ks : List String} (single : ks.Nodup) (first : ∀ k ∈ ks, k ∈ r.classes.keys)
    (second : ∀ k ∈ ks, k ∈ r.canonicals.keys) :
    (forIn ks PUnit.unit fun k _ => do forget k; pure (.yield ⟨⟩) : Change PUnit) r = .ok ⟨⟩ { r with
        classes := ks.foldl OrderedMap.erase r.classes
        canonicals := ks.foldl OrderedMap.erase r.canonicals } := by
  induction ks generalizing r with
  | nil => rfl
  | cons k ks ih =>
    obtain ⟨fresh, single⟩ := List.nodup_cons.1 single
    have run := forget_ok (first k List.mem_cons_self) (second k List.mem_cons_self)
    have step : (do forget k; pure (.yield ⟨⟩) : Change (ForInStep PUnit)) r = _ := bind_ok run
    rw [List.forIn_cons, bind_ok step]
    -- the names that are left differ from the one that is gone
    refine ih single (fun j later => ?_) fun j later => ?_
    · exact (mem_keys_erase _ _ _).2 ⟨fun same => fresh (same ▸ later), first j (List.mem_cons_of_mem k later)⟩
    · exact (mem_keys_erase _ _ _).2 ⟨fun same => fresh (same ▸ later), second j (List.mem_cons_of_mem k later)⟩

theorem remove_other {c : SignedName} (absent : c.text ∉ r.canonicalNames) : remove c.text r = .ok () r := by
  have unknown : r.canonicalNames.contains c.text = false := by simpa using absent
  unfold remove
  rw [bind_ok (x := get) rfl, unknown]
  rfl

theorem remove_ok {c : SignedName} (known : c.text ∈ r.canonicalNames)
    (single : (r.aliases c.text).Nodup) (own : c.text ∈ r.classes.keys)
    (other : c.negate.text ∈ r.classes.keys)
    (first : ∀ k ∈ r.either c c.negate, k ∈ r.classes.keys)
    (second : ∀ k ∈ r.either c c.negate, k ∈ r.canonicals.keys) :
    remove c.text r = .ok ()
      { classes := (r.either c c.negate).foldl OrderedMap.erase r.classes
        canonicals := (r.either c c.negate).foldl OrderedMap.erase r.canonicals
        canonicalNames := r.canonicalNames.filter (· ≠ c.text) } := by
  have present : ∀ v : SignedName, v.text ∈ r.classes.keys → r.knownClass v.text = .ok (r.aliases v.text) := by
    intro v key
    obtain ⟨ks, found⟩ := Option.isSome_iff_exists.1 ((r.classes.find?_isSome_iff v.text).2 key)
    simp [knownClass, aliases, found]
  have both : join (r.aliases c.text) (r.aliases c.negate.text) = r.either c c.negate := rfl
  have unique : (r.either c c.negate).Nodup := nodup_join _ single
  unfold remove
  rw [bind_ok (x := get) (s := r) rfl, if_pos (List.contains_iff_mem.2 known), present c own,
    bind_ok (x := ofExcept _) (s := r) rfl, negate_text, bind_ok (x := ofExcept _) (s := r) rfl,
    present c.negate other, bind_ok (x := ofExcept _) (s := r) rfl, both,
    bind_ok (forgetAll_ok unique first second)]
  rfl

end Remove

end AliasRelation

end Modelica
