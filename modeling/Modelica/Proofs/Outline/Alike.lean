import Modelica.Outline
import Modelica.Proofs.Expr.Bare
import Modelica.Proofs.Expr.Over

set_option autoImplicit false

namespace Modelica

namespace Outline

mutual

def entries : Outline → List Entry
  | .list items => itemEntries items
  | .table rows => tableEntries rows
  | .record _ fields => fieldEntries fields
  | .entry e => [e]
  | _ => []

def itemEntries : List Outline → List Entry
  | [] => []
  | o :: os => o.entries ++ itemEntries os

def tableEntries : List (Option String × Outline) → List Entry
  | [] => []
  | (_, o) :: os => o.entries ++ tableEntries os

def fieldEntries : List (String × Outline) → List Entry
  | [] => []
  | (_, o) :: os => o.entries ++ fieldEntries os

end

theorem fieldEntries_append (xs ys : List (String × Outline)) :
    fieldEntries (xs ++ ys) = fieldEntries xs ++ fieldEntries ys := by
  induction xs with
  | nil => rfl
  | cons x xs ih => rw [List.cons_append, fieldEntries, fieldEntries, ih, List.append_assoc]

theorem mem_tableEntries {α κ : Type} (key : κ → Option String) (wrap : α → Entry) (rows : List (κ × α)) (x : Entry) :
    x ∈ tableEntries (rows.map fun row => (key row.1, .entry (wrap row.2))) ↔ ∃ row ∈ rows, wrap row.2 = x := by
  induction rows with
  | nil => simp [tableEntries]
  | cons row rows ih => simp [tableEntries, entries, ih, eq_comm]

theorem mem_itemEntries {α : Type} (show_ : α → Outline) (items : List α) (x : Entry) :
    x ∈ itemEntries (items.map show_) ↔ ∃ a ∈ items, x ∈ (show_ a).entries := by
  induction items with
  | nil => simp [itemEntries]
  | cons a items ih => simp [itemEntries, ih]

mutual

def Alike (R : Entry → Entry → Prop) : Outline → Outline → Prop
  | .list items, o => ∃ items', o = .list items' ∧ ItemsAlike R items items'
  | .table rows, o => ∃ rows', o = .table rows' ∧ TableAlike R rows rows'
  | .record kind fields, o => ∃ fields', o = .record kind fields' ∧ FieldsAlike R fields fields'
  | .entry e, o => ∃ e', o = .entry e' ∧ R e e'
  | .null, o => o = .null
  | .bool b, o => o = .bool b
  | .integer n, o => o = .integer n
  | .real x, o => o = .real x
  | .string s, o => o = .string s
  | .visibility v, o => o = .visibility v
  | .link c, o => o = .link c

def ItemsAlike (R : Entry → Entry → Prop) : List Outline → List Outline → Prop
  | [], others => others = []
  | o :: os, others => ∃ o' os', others = o' :: os' ∧ Alike R o o' ∧ ItemsAlike R os os'

def TableAlike (R : Entry → Entry → Prop) :
    List (Option String × Outline) → List (Option String × Outline) → Prop
  | [], others => others = []
  | (k, o) :: os, others => ∃ o' os', others = (k, o') :: os' ∧ Alike R o o' ∧ TableAlike R os os'

def FieldsAlike (R : Entry → Entry → Prop) :
    List (String × Outline) → List (String × Outline) → Prop
  | [], others => others = []
  | (k, o) :: os, others => ∃ o' os', others = (k, o') :: os' ∧ Alike R o o' ∧ FieldsAlike R os os'

end

section Shapes

variable (R : Entry → Entry → Prop)

@[simp] theorem alike_list (xs ys : List Outline) : Alike R (.list xs) (.list ys) ↔ ItemsAlike R xs ys := by
  simp [Alike]

@[simp] theorem alike_table (xs ys : List (Option String × Outline)) :
    Alike R (.table xs) (.table ys) ↔ TableAlike R xs ys := by
  simp [Alike]

@[simp] theorem alike_record (k : String) (xs ys : List (String × Outline)) :
    Alike R (.record k xs) (.record k ys) ↔ FieldsAlike R xs ys := by
  simp [Alike]

@[simp] theorem alike_entry (e e' : Entry) : Alike R (.entry e) (.entry e') ↔ R e e' := by
  simp [Alike]

@[simp] theorem alike_null : Alike R .null .null := by
  simp [Alike]

@[simp] theorem alike_bool (b b' : Bool) : Alike R (.bool b) (.bool b') ↔ b' = b := by
  simp [Alike]

@[simp] theorem alike_integer (n n' : Int) : Alike R (.integer n) (.integer n') ↔ n' = n := by
  simp [Alike]

@[simp] theorem alike_string (s s' : String) : Alike R (.string s) (.string s') ↔ s' = s := by
  simp [Alike]

@[simp] theorem alike_visibility (v v' : Visibility) : Alike R (.visibility v) (.visibility v') ↔ v' = v := by
  simp [Alike]

@[simp] theorem alike_link (c c' : Option ClassId) : Alike R (.link c) (.link c') ↔ c' = c := by
  simp [Alike]

@[simp] theorem itemsAlike_nil : ItemsAlike R [] [] := by
  simp [ItemsAlike]

@[simp] theorem itemsAlike_cons (x y : Outline) (xs ys : List Outline) :
    ItemsAlike R (x :: xs) (y :: ys) ↔ Alike R x y ∧ ItemsAlike R xs ys := by
  simp [ItemsAlike]

@[simp] theorem tableAlike_nil : TableAlike R [] [] := by
  simp [TableAlike]

@[simp] theorem tableAlike_cons (k : Option String) (x y : Outline) (xs ys : List (Option String × Outline)) :
    TableAlike R ((k, x) :: xs) ((k, y) :: ys) ↔ Alike R x y ∧ TableAlike R xs ys := by
  simp [TableAlike]

@[simp] theorem fieldsAlike_nil : FieldsAlike R [] [] := by
  simp [FieldsAlike]

@[simp] theorem fieldsAlike_cons (k : String) (x y : Outline) (xs ys : List (String × Outline)) :
    FieldsAlike R ((k, x) :: xs) ((k, y) :: ys) ↔ Alike R x y ∧ FieldsAlike R xs ys := by
  simp [FieldsAlike]

theorem alike_optional_entry {α : Type} (wrap : α → Entry) {a b : Option α}
    (related : Option.Rel (fun a b => R (wrap a) (wrap b)) a b) :
    Alike R (optional (fun a => .entry (wrap a)) a) (optional (fun a => .entry (wrap a)) b) := by
  cases related with
  | some related => exact (alike_entry R _ _).2 related
  | none => exact alike_null R

theorem itemsAlike_append {xs ys xs' ys' : List Outline} (first : ItemsAlike R xs xs')
    (second : ItemsAlike R ys ys') : ItemsAlike R (xs ++ ys) (xs' ++ ys') := by
  induction xs generalizing xs' with
  | nil =>
    rw [ItemsAlike] at first
    subst first
    exact second
  | cons x xs ih =>
    rw [ItemsAlike] at first
    obtain ⟨y, rest, rfl, here, later⟩ := first
    exact (itemsAlike_cons R x y _ _).2 ⟨here, ih later⟩

theorem fieldsAlike_append {xs ys xs' ys' : List (String × Outline)}
    (first : FieldsAlike R xs xs') (second : FieldsAlike R ys ys') : FieldsAlike R (xs ++ ys) (xs' ++ ys') := by
  induction xs generalizing xs' with
  | nil =>
    rw [FieldsAlike] at first
    subst first
    exact second
  | cons x xs ih =>
    obtain ⟨k, x⟩ := x
    rw [FieldsAlike] at first
    obtain ⟨y, rest, rfl, here, later⟩ := first
    exact (fieldsAlike_cons R k x y _ _).2 ⟨here, ih later⟩

theorem itemsAlike_map {α : Type} (f : α → Outline) {xs ys : List α}
    (each : List.Forall₂ (fun x y => Alike R (f x) (f y)) xs ys) : ItemsAlike R (xs.map f) (ys.map f) := by
  induction each with
  | nil => exact itemsAlike_nil R
  | cons here _ ih => exact (itemsAlike_cons R _ _ _ _).2 ⟨here, ih⟩

@[simp] theorem entries_strings (ss : List String) : (strings ss).entries = [] := by
  have items : itemEntries (ss.map .string) = [] := by
    induction ss with
    | nil => rfl
    | cons s ss ih => simpa [itemEntries, entries] using ih
  simpa [strings, entries] using items

@[simp] theorem alike_optional_string (s : Option String) : Alike R (optional .string s) (optional .string s) := by
  cases s <;> simp [optional]

@[simp] theorem alike_strings (ss : List String) : Alike R (strings ss) (strings ss) :=
  (alike_list R _ _).2 (itemsAlike_map R .string (List.forall₂_same.2 fun s _ => (alike_string R s s).2 rfl))

end Shapes

section Entries

-- the assumption is used by one of the four mutual statements only
set_option linter.unusedSectionVars false

variable {R : Entry → Entry → Prop} {f g : Entry → Except Error Outline}
  (same : ∀ e e', R e e' → f e = g e')

include same

mutual

theorem alike_spec (o o' : Outline) (alike : Alike R o o') :
    mapEntries f o = mapEntries g o' ∧ List.Forall₂ R o.entries o'.entries := by
  match o with
  | .list items =>
    rw [Alike] at alike
    obtain ⟨items', rfl, each⟩ := alike
    obtain ⟨mapped, held⟩ := itemsAlike_spec items items' each
    exact ⟨by rw [mapEntries, mapEntries, mapped], held⟩
  | .table rows =>
    rw [Alike] at alike
    obtain ⟨rows', rfl, each⟩ := alike
    obtain ⟨mapped, held⟩ := tableAlike_spec rows rows' each
    exact ⟨by rw [mapEntries, mapEntries, mapped], held⟩
  | .record k fields =>
    rw [Alike] at alike
    obtain ⟨fields', rfl, each⟩ := alike
    obtain ⟨mapped, held⟩ := fieldsAlike_spec fields fields' each
    exact ⟨by rw [mapEntries, mapEntries, mapped], held⟩
  | .entry e =>
    rw [Alike] at alike
    obtain ⟨e', rfl, related⟩ := alike
    exact ⟨same e e' related, .cons related .nil⟩
  | .null | .bool _ | .integer _ | .real _ | .string _ | .visibility _ | .link _ =>
    rw [Alike] at alike
    subst alike
    exact ⟨rfl, .nil⟩

theorem itemsAlike_spec (os os' : List Outline) (alike : ItemsAlike R os os') :
    mapItems f os = mapItems g os' ∧ List.Forall₂ R (itemEntries os) (itemEntries os') := by
  match os with
  | [] =>
    rw [ItemsAlike] at alike
    subst alike
    exact ⟨rfl, .nil⟩
  | o :: os =>
    rw [ItemsAlike] at alike
    obtain ⟨o', rest, rfl, first, others⟩ := alike
    obtain ⟨mapped, held⟩ := alike_spec o o' first
    obtain ⟨mapped', held'⟩ := itemsAlike_spec os rest others
    exact ⟨by rw [mapItems, mapItems, mapped, mapped'], List.rel_append held held'⟩

theorem tableAlike_spec (os os' : List (Option String × Outline)) (alike : TableAlike R os os') :
    mapTable f os = mapTable g os' ∧ List.Forall₂ R (tableEntries os) (tableEntries os') := by
  match os with
  | [] =>
    rw [TableAlike] at alike
    subst alike
    exact ⟨rfl, .nil⟩
  | (k, o) :: os =>
    rw [TableAlike] at alike
    obtain ⟨o', rest, rfl, first, others⟩ := alike
    obtain ⟨mapped, held⟩ := alike_spec o o' first
    obtain ⟨mapped', held'⟩ := tableAlike_spec os rest others
    exact ⟨by rw [mapTable, mapTable, mapped, mapped'], List.rel_append held held'⟩

theorem fieldsAlike_spec (os os' : List (String × Outline)) (alike : FieldsAlike R os os') :
    mapFields f os = mapFields g os' ∧ List.Forall₂ R (fieldEntries os) (fieldEntries os') := by
  match os with
  | [] =>
    rw [FieldsAlike] at alike
    subst alike
    exact ⟨rfl, .nil⟩
  | (k, o) :: os =>
    rw [FieldsAlike] at alike
    obtain ⟨o', rest, rfl, first, others⟩ := alike
    obtain ⟨mapped, held⟩ := alike_spec o o' first
    obtain ⟨mapped', held'⟩ := fieldsAlike_spec os rest others
    exact ⟨by rw [mapFields, mapFields, mapped, mapped'], List.rel_append held held'⟩

end

omit same in
theorem exists_of_mem_entries (o o' : Outline) (alike : Alike R o o') : ∀ e' ∈ o'.entries, ∃ e ∈ o.entries, R e e' := by
  have each := (alike_spec (f := fun _ => .ok .null) (fun _ _ _ => rfl) o o' alike).2
  generalize o.entries = es at each
  generalize o'.entries = es' at each
  induction each with
  | nil => simp
  | cons first _ ih =>
    refine List.forall_mem_cons.2 ⟨⟨_, List.mem_cons_self, first⟩, fun e' member => ?_⟩
    obtain ⟨e, listed, related⟩ := ih e' member
    exact ⟨e, List.mem_cons_of_mem _ listed, related⟩

end Entries

end Outline

end Modelica
