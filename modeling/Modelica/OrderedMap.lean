set_option autoImplicit false

namespace Modelica

structure OrderedMap (κ α : Type) where
  entries : List (κ × α)

namespace OrderedMap

variable {κ α : Type} [DecidableEq κ]

def empty : OrderedMap κ α := ⟨[]⟩

instance : Inhabited (OrderedMap κ α) := ⟨empty⟩

def keys (m : OrderedMap κ α) : List κ := m.entries.map Prod.fst

def values (m : OrderedMap κ α) : List α := m.entries.map Prod.snd

def find? (m : OrderedMap κ α) (k : κ) : Option α :=
  m.entries.lookup k

def contains (m : OrderedMap κ α) (k : κ) : Bool :=
  (m.find? k).isSome

def insertEntry (k : κ) (a : α) : List (κ × α) → List (κ × α)
  | [] => [(k, a)]
  | (j, b) :: rest => if j = k then (j, a) :: rest else (j, b) :: insertEntry k a rest

def insert (m : OrderedMap κ α) (k : κ) (a : α) : OrderedMap κ α :=
  ⟨insertEntry k a m.entries⟩

def erase (m : OrderedMap κ α) (k : κ) : OrderedMap κ α :=
  ⟨m.entries.filter fun e => decide (e.1 ≠ k)⟩

def union (m n : OrderedMap κ α) : OrderedMap κ α :=
  n.entries.foldl (fun m e => m.insert e.1 e.2) m

omit [DecidableEq κ] in
@[simp] theorem entries_empty : (empty : OrderedMap κ α).entries = [] := rfl

theorem lookup_insertEntry_self (k : κ) (a : α) (es : List (κ × α)) :
    (insertEntry k a es).lookup k = some a := by
  induction es with
  | nil => simp [insertEntry]
  | cons e es ih =>
    obtain ⟨j, b⟩ := e
    by_cases h : j = k
    · simp [insertEntry, h]
    · have h' : (k == j) = false := by simpa using fun e => h e.symm
      simp [insertEntry, h, List.lookup_cons, h', ih]

theorem lookup_insertEntry_ne {k j : κ} (h : j ≠ k) (a : α) (es : List (κ × α)) :
    (insertEntry k a es).lookup j = es.lookup j := by
  induction es with
  | nil =>
    have h' : (j == k) = false := by simpa using h
    simp [insertEntry, List.lookup_cons, h']
  | cons e es ih =>
    obtain ⟨i, b⟩ := e
    by_cases hi : i = k
    · have h' : (j == k) = false := by simpa using h
      simp [insertEntry, hi, List.lookup_cons, h']
    · simp [insertEntry, hi, List.lookup_cons, ih]

@[simp] theorem find?_insert_self (m : OrderedMap κ α) (k : κ) (a : α) :
    (m.insert k a).find? k = some a :=
  lookup_insertEntry_self k a m.entries

@[simp] theorem find?_insert_ne (m : OrderedMap κ α) {k j : κ} (h : j ≠ k) (a : α) :
    (m.insert k a).find? j = m.find? j :=
  lookup_insertEntry_ne h a m.entries

end OrderedMap

end Modelica
