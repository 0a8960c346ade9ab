import Modelica.Proofs.Library.Parts
import Modelica.Proofs.Library.Walk

set_option autoImplicit false

namespace Modelica

namespace Copy

open Build Library Outline

structure Framed (d e : ClassDef) : Prop where
  parent : e.parent = d.parent
  imports : e.imports = d.imports
  bases : e.bases = d.bases

section

variable {R : Entry → Entry → Prop}

theorem tableAlike_of_related {κ γ : Type} (key : κ → Option String) (wrap : γ → Entry)
    {es es' : List (κ × γ)}
    (related : List.Forall₂ (fun a b => a.1 = b.1 ∧ R (wrap a.2) (wrap b.2)) es es') :
    TableAlike R (es.map fun e => (key e.1, .entry (wrap e.2))) (es'.map fun e => (key e.1, .entry (wrap e.2))) := by
  induction related with
  | nil => exact tableAlike_nil R
  | cons first _ ih =>
    rw [List.map_cons, List.map_cons, first.1]
    exact (tableAlike_cons R _ _ _ _ _).2 ⟨(alike_entry R _ _).2 first.2, ih⟩

theorem ClassMade.alike {d e : ClassDef} (made : ClassMade R d e)
    (imports : ∀ i ∈ d.imports, i.component.bare = true)
    (bases : ∀ e ∈ d.extends_, e.component.bare = true) : Alike R d.outline e.outline := by
  have extends_ : ItemsAlike R (d.extends_.map ExtendsClause.outline) (e.extends_.map ExtendsClause.outline) := by
    have each := made.extends_
    generalize d.extends_ = xs, e.extends_ = ys at each bases
    refine itemsAlike_map R _ ?_
    induction each with
    | nil => exact .nil
    | @cons a b _ _ first _ ih =>
      rw [List.forall_mem_cons] at bases
      refine .cons ?_ (ih bases.2)
      rw [first.1]
      simp [ExtendsClause.outline, first.2, a.component.alike_of_bare R bases.1]
  have imports : ItemsAlike R (d.imports.map ImportClause.outline) (d.imports.map ImportClause.outline) :=
    itemsAlike_map _ _ (List.forall₂_same.2 fun clause listed => by
      simp [ImportClause.outline, clause.component.alike_of_bare R (imports clause listed)])
  have classes := tableAlike_of_related id Entry.class_ made.classes
  have symbols := tableAlike_of_related some Entry.symbol made.symbols
  have functions := tableAlike_of_related some Entry.class_ made.functions
  have optimization := alike_optional_entry R _ made.optimization
  have annotated := made.annotated
  have role := made.role
  rw [made.rest]
  simp only [id_eq] at classes
  simp only [ClassDef.outline, ← role.kind]
  refine (alike_record _ _ _ _).2 (fieldsAlike_append _ ?_ ?_)
  · simp [extends_, classes, symbols, functions, made.initialEquations, made.equations,
      made.constraints, made.initialStatements, made.statements, optimization, imports]
    generalize d.annotated = m, e.annotated = n at annotated
    cases annotated <;> simp [*]
  · generalize d.role = r, e.role = q at role
    cases role <;> simp [*]

theorem SymbolMade.alike {d e : Symbol} (made : SymbolMade R d e) :
    Alike R d.outline e.outline := by
  have type : Alike R d.type.outline e.type.outline := by
    have type := made.type
    generalize d.type = t, e.type = u at type
    cases type with
    | named alike => exact alike
    | instance_ related => exact (alike_entry R _ _).2 related
    | connector name => exact alike_optional_string R name
  have modification := alike_optional_entry R _ made.modification
  have connector := made.connectorType
  rw [made.rest]
  simp only [Symbol.outline]
  refine (alike_record _ _ _ _).2 (fieldsAlike_append _ ?_ ?_)
  · simp [type, made.dimensions, made.start, made.min, made.max, made.nominal, made.value, made.fixed,
      made.unit, made.free, made.initialGuess, modification]
  · generalize d.connectorType = c, e.connectorType = c' at connector
    cases connector <;> simp [*]

end

theorem mem_entries_of_nested {d : ClassDef} {c : ClassId}
    (has : c ∈ d.classes.values ∨ c ∈ d.functions.values) : .class_ c ∈ d.outline.entries := by
  simp only [ClassDef.outline, entries, fieldEntries_append, fieldEntries, List.mem_append]
  obtain has | has := has
  · have listed := (mem_tableEntries id Entry.class_ d.classes.entries (.class_ c)).2
      (by simpa using List.mem_map.1 has)
    simp only [id_eq] at listed
    simp only [listed, true_or, or_true]
  · have listed := (mem_tableEntries some Entry.class_ d.functions.entries (.class_ c)).2
      (by simpa using List.mem_map.1 has)
    simp only [listed, true_or, or_true]

theorem mem_entries_of_type {d : Symbol} {c : ClassId} (has : d.type = .instance_ c ∨ d.connectorType = some c) :
    .class_ c ∈ d.outline.entries := by
  obtain has | has := has <;> simp [Symbol.outline, has, SymbolType.outline, entries, fieldEntries]

end Copy

end Modelica
