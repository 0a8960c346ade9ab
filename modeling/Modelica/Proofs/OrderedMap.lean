import Mathlib.Data.List.Nodup
import Modelica.OrderedMap

set_option autoImplicit false

namespace Modelica.OrderedMap

open List (foldl_cons lookup_cons map_cons mem_cons mem_cons_of_mem mem_map_of_mem)

variable {κ α : Type} [DecidableEq κ]

section

variable (m : OrderedMap κ α)
include m

theorem find?_isSome_iff (k : κ) : (m.find? k).isSome ↔ k ∈ m.keys := by
  unfold find? keys
  induction m.entries with
  | nil => simp
  | cons e es ih =>
    obtain ⟨j, b⟩ := e
    by_cases same : k = j
    · simp [same]
    · have differs : (k == j) = false := by simpa using same
      simp [lookup_cons, differs, same, ih]

theorem find?_eq_none_iff (k : κ) : m.find? k = none ↔ k ∉ m.keys := by
  rw [← find?_isSome_iff]
  simp

theorem contains_iff (k : κ) : m.contains k = true ↔ k ∈ m.keys := find?_isSome_iff m k

theorem mem_entries_of_find? (k : κ) (a : α) (found : m.find? k = some a) : (k, a) ∈ m.entries := by
  obtain ⟨es⟩ := m
  unfold find? at found
  induction es with
  | nil => simp at found
  | cons e es ih =>
    obtain ⟨j, b⟩ := e
    by_cases same : k = j
    · simp_all
    · have differs : (k == j) = false := by simpa using same
      simp only [lookup_cons, differs] at found
      exact mem_cons_of_mem _ (ih found)

theorem find?_of_mem (unique : m.keys.Nodup) (k : κ) (a : α) (member : (k, a) ∈ m.entries) : m.find? k = some a := by
  obtain ⟨es⟩ := m
  unfold find?
  simp only [keys] at unique
  induction es with
  | nil => simp at member
  | cons e es ih =>
    obtain ⟨j, b⟩ := e
    simp only [map_cons, List.nodup_cons] at unique
    obtain same | later := List.mem_cons.1 member
    · cases same
      simp
    · have differs : (k == j) = false := by
        rw [beq_eq_false_iff_ne]
        rintro rfl
        exact unique.1 (mem_map_of_mem later)
      simp only [lookup_cons, differs]
      exact ih unique.2 later

theorem keys_insert (k : κ) (a : α) : (m.insert k a).keys = if k ∈ m.keys then m.keys else m.keys ++ [k] := by
  unfold insert keys
  induction m.entries with
  | nil => simp [insertEntry]
  | cons e es ih =>
    obtain ⟨j, b⟩ := e
    by_cases same : j = k
    · simp [insertEntry, same]
    · have differs : k ≠ j := fun equal => same equal.symm
      simp only [insertEntry, same, if_false, map_cons, ih, mem_cons, differs, false_or]
      split <;> simp

@[simp] theorem mem_keys_insert (k j : κ) (a : α) : j ∈ (m.insert k a).keys ↔ j = k ∨ j ∈ m.keys := by
  rw [keys_insert]
  split
  · next present =>
    constructor
    · exact .inr
    · rintro (rfl | member)
      · exact present
      · exact member
  · simp [or_comm]

theorem nodup_insert (unique : m.keys.Nodup) (k : κ) (a : α) : (m.insert k a).keys.Nodup := by
  rw [keys_insert]
  split
  · exact unique
  · next absent =>
    rw [List.nodup_append]
    refine ⟨unique, List.nodup_singleton k, ?_⟩
    intro j member i single
    rw [List.mem_singleton] at single
    rintro rfl
    exact absent (single ▸ member)

theorem mem_entries_insert (k : κ) (a : α) (e : κ × α) (member : e ∈ (m.insert k a).entries) :
    e = (k, a) ∨ e ∈ m.entries := by
  obtain ⟨es⟩ := m
  simp only [insert] at member ⊢
  induction es with
  | nil => simpa [insertEntry] using member
  | cons f es ih =>
    obtain ⟨j, b⟩ := f
    by_cases same : j = k
    · subst same
      simp only [insertEntry, if_true, mem_cons] at member
      exact member.imp id (mem_cons_of_mem _)
    · simp only [insertEntry, same, if_false, mem_cons] at member
      obtain first | later := member
      · exact .inr (first ▸ List.mem_cons_self)
      · exact (ih later).imp id (mem_cons_of_mem _)

end

theorem mem_values_of_find? {m : OrderedMap κ α} {k : κ} {a : α} (found : m.find? k = some a) : a ∈ m.values :=
  mem_map_of_mem (m.mem_entries_of_find? k a found)

omit [DecidableEq κ] in
theorem not_mem_done {m : OrderedMap κ α} {done rest : List (κ × α)} {e : κ × α} (unique : m.keys.Nodup)
    (all : m.entries = done ++ e :: rest) : e.1 ∉ done.map Prod.fst := by
  intro member
  rw [OrderedMap.keys, all, List.map_append, map_cons] at unique
  exact (List.nodup_append.1 unique).2.2 e.1 member e.1 List.mem_cons_self rfl

theorem insertEntry_append (k : κ) (a : α) (before rest : List (κ × α)) (absent : k ∉ before.map Prod.fst) :
    insertEntry k a (before ++ rest) = before ++ insertEntry k a rest := by
  induction before with
  | nil => rfl
  | cons e before ih =>
    obtain ⟨j, b⟩ := e
    rw [map_cons, mem_cons, not_or] at absent
    have differs : j ≠ k := fun same => absent.1 same.symm
    rw [List.cons_append, insertEntry, if_neg differs, ih absent.2, List.cons_append]

theorem entries_insert_of_not_mem (m : OrderedMap κ α) (k : κ) (a : α) (absent : k ∉ m.keys) :
    (m.insert k a).entries = m.entries ++ [(k, a)] := by
  have all := insertEntry_append k a m.entries [] absent
  rwa [List.append_nil] at all

section Union

variable (m n : OrderedMap κ α)

theorem entries_union_of_disjoint (unique : n.keys.Nodup) (apart : ∀ k ∈ n.keys, k ∉ m.keys) :
    (m.union n).entries = m.entries ++ n.entries := by
  obtain ⟨es⟩ := n
  simp only [union, keys] at *
  induction es generalizing m with
  | nil => simp
  | cons e es ih =>
    rw [map_cons, List.nodup_cons] at unique
    have first := entries_insert_of_not_mem m e.1 e.2 (apart e.1 (by simp))
    rw [foldl_cons, ih _ unique.2, first, List.append_assoc]
    · rfl
    · intro k later
      rw [first, List.map_append, List.mem_append, not_or]
      refine ⟨apart k (mem_cons_of_mem _ later), ?_⟩
      rintro single
      obtain rfl : k = e.1 := by simpa using single
      exact unique.1 later

theorem empty_union (unique : n.keys.Nodup) : empty.union n = n := by
  have entries := entries_union_of_disjoint empty n unique (by simp [keys])
  obtain ⟨es⟩ := n
  rw [entries_empty, List.nil_append] at entries
  exact congrArg OrderedMap.mk entries

theorem mem_keys_union (k : κ) : k ∈ (m.union n).keys ↔ k ∈ m.keys ∨ k ∈ n.keys := by
  unfold union
  have general : ∀ (es : List (κ × α)) (m : OrderedMap κ α),
      k ∈ (es.foldl (fun m e => m.insert e.1 e.2) m).keys ↔ k ∈ m.keys ∨ k ∈ es.map Prod.fst := by
    intro es
    induction es with
    | nil => simp
    | cons e es ih =>
      intro m
      rw [foldl_cons, ih, mem_keys_insert, map_cons, mem_cons]
      tauto
  exact general n.entries m

theorem nodup_union (unique : m.keys.Nodup) : (m.union n).keys.Nodup := by
  unfold union
  induction n.entries generalizing m with
  | nil => exact unique
  | cons e es ih => exact ih _ (nodup_insert m unique e.1 e.2)

theorem mem_entries_union (e : κ × α) (member : e ∈ (m.union n).entries) : e ∈ m.entries ∨ e ∈ n.entries := by
  obtain ⟨es⟩ := n
  simp only [union] at member ⊢
  induction es generalizing m with
  | nil => exact .inl member
  | cons f es ih =>
    obtain before | later := ih (m.insert f.1 f.2) member
    · obtain same | old := mem_entries_insert m f.1 f.2 e before
      · exact .inr (same ▸ List.mem_cons_self)
      · exact .inl old
    · exact .inr (mem_cons_of_mem f later)

end Union

section MapValues

variable {β : Type}

def mapValues (f : α → β) (m : OrderedMap κ α) : OrderedMap κ β :=
  ⟨m.entries.map fun e => (e.1, f e.2)⟩

omit [DecidableEq κ] in
@[simp] theorem keys_mapValues (f : α → β) (m : OrderedMap κ α) : (m.mapValues f).keys = m.keys := by
  simp [keys, mapValues]

omit [DecidableEq κ] in
theorem mapValues_congr (f g : α → β) (m : OrderedMap κ α) (same : ∀ a ∈ m.values, f a = g a) :
    m.mapValues f = m.mapValues g := by
  refine congrArg OrderedMap.mk (List.map_congr_left fun e member => ?_)
  rw [same e.2 (mem_map_of_mem member)]

theorem find?_mapValues (f : α → β) (m : OrderedMap κ α) (k : κ) : (m.mapValues f).find? k = (m.find? k).map f := by
  obtain ⟨es⟩ := m
  unfold mapValues find?
  induction es with
  | nil => rfl
  | cons e es ih =>
    rw [map_cons, lookup_cons, lookup_cons]
    split
    · rfl
    · exact ih

theorem mapValues_insert (f : α → β) (m : OrderedMap κ α) (k : κ) (a : α) :
    (m.insert k a).mapValues f = (m.mapValues f).insert k (f a) := by
  obtain ⟨es⟩ := m
  refine congrArg OrderedMap.mk ?_
  show (insertEntry k a es).map _ = insertEntry k (f a) (es.map _)
  induction es with
  | nil => rfl
  | cons e es ih =>
    rw [insertEntry, map_cons, insertEntry]
    split
    · rfl
    · rw [map_cons, ih]

theorem mapValues_union (f : α → β) (m n : OrderedMap κ α) :
    (m.union n).mapValues f = (m.mapValues f).union (n.mapValues f) := by
  obtain ⟨es⟩ := n
  unfold union mapValues
  simp only [List.foldl_map]
  induction es generalizing m with
  | nil => rfl
  | cons e es ih =>
    rw [foldl_cons, foldl_cons, ih]
    exact congrArg (fun t => List.foldl _ t es) (mapValues_insert f m e.1 e.2)

end MapValues

section

variable (ks : List κ) (m : OrderedMap κ α)
include ks m

theorem find?_insertAll (a : α) (k : κ) :
    (ks.foldl (fun m j => m.insert j a) m).find? k = if k ∈ ks then some a else m.find? k := by
  induction ks generalizing m with
  | nil => simp
  | cons j ks ih =>
    rw [foldl_cons, ih]
    by_cases later : k ∈ ks
    · simp [later]
    · by_cases first : k = j
      · simp [first]
      · simp [later, first]

theorem mem_keys_insertAll (a : α) (k : κ) :
    k ∈ (ks.foldl (fun m j => m.insert j a) m).keys ↔ k ∈ ks ∨ k ∈ m.keys := by
  rw [← find?_isSome_iff, find?_insertAll, ← find?_isSome_iff m]
  split <;> simp_all

theorem nodup_insertAll (unique : m.keys.Nodup) (a : α) :
    (ks.foldl (fun m j => m.insert j a) m).keys.Nodup := by
  induction ks generalizing m with
  | nil => exact unique
  | cons j ks ih => exact ih _ (nodup_insert m unique j a)

end

section UnionFind

variable (m n : OrderedMap κ α)

theorem foldl_union {β : Type} (es : β → List (κ × α)) (bs : List β) :
    bs.foldl (fun m b => m.union ⟨es b⟩) m = m.union ⟨bs.flatMap es⟩ := by
  induction bs generalizing m with
  | nil => rfl
  | cons b bs ih =>
    rw [foldl_cons, ih]
    simp [union, List.foldl_append]

theorem find?_union_of_not_mem (k : κ) (absent : k ∉ n.keys) : (m.union n).find? k = m.find? k := by
  obtain ⟨es⟩ := n
  simp only [union, keys] at *
  induction es generalizing m with
  | nil => rfl
  | cons e es ih =>
    rw [map_cons, mem_cons, not_or] at absent
    rw [foldl_cons, ih _ absent.2, find?_insert_ne m absent.1]

theorem find?_union_of_mem (single : ∀ e ∈ n.entries, ∀ f ∈ n.entries, e.1 = f.1 → e.2 = f.2)
    (k : κ) (a : α) (member : (k, a) ∈ n.entries) : (m.union n).find? k = some a := by
  obtain ⟨es⟩ := n
  simp only [union] at *
  induction es generalizing m with
  | nil => simp at member
  | cons e es ih =>
    have rest : ∀ e ∈ es, ∀ f ∈ es, e.1 = f.1 → e.2 = f.2 := fun e first f second =>
      single e (mem_cons_of_mem _ first) f (mem_cons_of_mem _ second)
    rw [foldl_cons]
    by_cases again : k ∈ es.map Prod.fst
    · obtain ⟨f, later, rfl⟩ := List.mem_map.1 again
      have same : f.2 = a := single f (mem_cons_of_mem _ later) _ member rfl
      exact ih _ rest (same ▸ later)
    · have first : e = (k, a) := by
        obtain same | later := List.mem_cons.1 member
        · exact same.symm
        · exact absurd (mem_map_of_mem later) again
      subst first
      exact (find?_union_of_not_mem _ ⟨es⟩ k again).trans (find?_insert_self m k a)

end UnionFind

section Erase

variable (m : OrderedMap κ α)

theorem find?_erase (k j : κ) : (m.erase j).find? k = if k = j then none else m.find? k := by
  obtain ⟨es⟩ := m
  unfold erase find?
  induction es with
  | nil => simp
  | cons e es ih =>
    obtain ⟨i, b⟩ := e
    by_cases gone : i = j
    · subst gone
      have dropped : ((i, b) :: es).filter (fun e => decide (e.1 ≠ i)) = es.filter fun e => decide (e.1 ≠ i) := by simp
      rw [dropped, ih]
      by_cases same : k = i
      · simp [same]
      · have differs : (k == i) = false := by simpa using same
        simp [same, lookup_cons, differs]
    · have kept : ((i, b) :: es).filter (fun e => decide (e.1 ≠ j)) =
          (i, b) :: es.filter fun e => decide (e.1 ≠ j) := by simp [gone]
      rw [kept, lookup_cons, lookup_cons, ih]
      by_cases same : k = i
      · subst same
        simp [gone]
      · have differs : (k == i) = false := by simpa using same
        rw [differs]

theorem mem_keys_erase (k j : κ) : k ∈ (m.erase j).keys ↔ k ≠ j ∧ k ∈ m.keys := by
  rw [← find?_isSome_iff, find?_erase, ← find?_isSome_iff m]
  split <;> simp_all

theorem find?_eraseAll (ks : List κ) (k : κ) : (ks.foldl erase m).find? k = if k ∈ ks then none else m.find? k := by
  induction ks generalizing m with
  | nil => simp
  | cons j ks ih =>
    rw [foldl_cons, ih, find?_erase]
    by_cases later : k ∈ ks
    · simp [later]
    · by_cases first : k = j <;> simp [later, first]

end Erase

end Modelica.OrderedMap
