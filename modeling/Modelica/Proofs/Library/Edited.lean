import Modelica.Library.Edit
import Modelica.Proofs.Library.Lineage

set_option autoImplicit false

namespace Modelica

open Outline

theorem ClassDef.mem_entries (d : ClassDef) (x : Entry) : x ∈ d.outline.entries ↔
    x ∈ itemEntries (d.imports.map ImportClause.outline) ∨ x ∈ itemEntries (d.extends_.map ExtendsClause.outline) ∨
    (∃ e ∈ d.classes.entries, .class_ e.2 = x) ∨ (∃ e ∈ d.symbols.entries, .symbol e.2 = x) ∨
    (∃ e ∈ d.functions.entries, .class_ e.2 = x) ∨ x ∈ itemEntries (Equation.outlines d.initialEquations) ∨
    x ∈ itemEntries (Equation.outlines d.equations) ∨ x ∈ itemEntries (d.constraints.map Constraint.outline) ∨
    x ∈ itemEntries (Statement.outlines d.initialStatements) ∨ x ∈ itemEntries (Statement.outlines d.statements) ∨
    (∃ m, d.annotated = some m ∧ .modification m = x) ∨ (∃ m, d.optimization = some m ∧ .modification m = x) ∨
    ∃ m, d.role = .instance_ m ∧ .modification m = x := by
  have classes := mem_tableEntries id Entry.class_ d.classes.entries x
  have symbols := mem_tableEntries some Entry.symbol d.symbols.entries x
  have functions := mem_tableEntries some Entry.class_ d.functions.entries x
  simp only [id_eq] at classes
  have optimization : x ∈ (Outline.optional (fun m => .entry (.modification m)) d.optimization).entries ↔
      ∃ m, d.optimization = some m ∧ .modification m = x := by
    cases d.optimization <;> simp [Outline.optional, entries, eq_comm]
  have name : (Outline.optional .string d.name).entries = [] := by
    cases d.name <;> simp [Outline.optional, entries]
  rw [ClassDef.outline, entries, fieldEntries_append]
  simp only [fieldEntries, entries, List.mem_append, name, classes, symbols, functions, optimization,
    List.not_mem_nil, false_or, or_false, or_assoc]
  cases d.annotated <;> cases d.role <;> simp [fieldEntries, itemEntries, entries, eq_comm]

theorem Equation.mem_outlines (es : List Equation) (x : Entry) :
    x ∈ itemEntries (Equation.outlines es) ↔ ∃ e ∈ es, x ∈ e.outline.entries := by
  induction es with
  | nil => simp [Equation.outlines, itemEntries]
  | cons e es ih => simp [Equation.outlines, itemEntries, ih]

structure ClassDef.Fits (lib : Library) (d : ClassDef) : Prop where
  entries : ∀ x ∈ d.outline.entries, lib.Has x
  parent : ∀ p, d.parent = some p → lib.Has (.class_ p)
  imports : ∀ i ∈ d.imports, i.component.bare = true
  bases : ∀ e ∈ d.extends_, e.component.bare = true

namespace ClassDef

variable {lib : Library} {d : ClassDef} (fits : d.Fits lib)

include fits

theorem Fits.setTables (classes : OrderedMap (Option String) ClassId) (symbols : OrderedMap String SymbolId)
    (inner : ∀ e ∈ classes.entries, e ∈ d.classes.entries ∨ lib.Has (.class_ e.2))
    (components : ∀ e ∈ symbols.entries, e ∈ d.symbols.entries ∨ lib.Has (.symbol e.2)) :
    ({ d with classes := classes, symbols := symbols }).Fits lib := by
  refine ⟨fun x member => ?_, fits.parent, fits.imports, fits.bases⟩
  have old := fits.entries x
  rw [mem_entries] at member old
  grind

theorem Fits.setEquations (equations : List Equation)
    (each : ∀ e ∈ equations, e ∈ d.equations ∨ ∀ x ∈ e.outline.entries, lib.Has x) :
    ({ d with equations := equations }).Fits lib := by
  refine ⟨fun x member => ?_, fits.parent, fits.imports, fits.bases⟩
  have old := fits.entries x
  simp only [mem_entries, Equation.mem_outlines] at member old
  grind

theorem Fits.setParent (parent : Option ClassId)
    (known : ∀ p, parent = some p → lib.Has (.class_ p)) : ({ d with parent := parent }).Fits lib := by
  refine ⟨fun x member => fits.entries x ?_, known, fits.imports, fits.bases⟩
  rw [mem_entries] at member ⊢
  exact member

theorem Fits.setField (name : String) (value : Outline) : (d.setField name value).Fits lib := by
  unfold ClassDef.setField
  split
  all_goals
    refine { fits with entries := fun x member => fits.entries x ?_ }
    rw [mem_entries] at member ⊢
    exact member

omit fits in
theorem origin_setField (name : String) (value : Outline) : (d.setField name value).origin = d.origin := by
  unfold ClassDef.setField
  split <;> rfl

end ClassDef

namespace Library

variable {lib next : Library} (whole : lib.Whole)

include whole

variable {c d : ClassId}

theorem Whole.classFits (known : lib.Has (.class_ c)) : (lib.classOf c).Fits lib :=
  ⟨fun x => whole.closed _ x known, fun p => whole.parent c p known, whole.imports c known, whole.bases c known⟩

omit whole in
theorem fits_of_classOf {d : ClassDef} (stored : next.classOf c = d) (fits : d.Fits lib)
    (more : ∀ x, lib.Has x → next.Has x) : next.Fits (.class_ c) := by
  subst stored
  refine ⟨fun y leads => more y (fits.entries y leads), ?_, ?_, ?_⟩
  · rintro _ p ⟨⟩ parent
    exact more _ (fits.parent p parent)
  · rintro _ ⟨⟩
    exact fits.imports
  · rintro _ ⟨⟩
    exact fits.bases

theorem Whole.modifyClass (known : lib.Has (.class_ c)) (f : ClassDef → ClassDef)
    (origin : (f (lib.classOf c)).origin = lib.originOf c) (fits : (f (lib.classOf c)).Fits lib) :
    lib.Follows (lib.modifyClass c f) := by
  have touches := touches_modifyClass lib c f
  have stored := classOf_modifyClass_self lib c f known
  refine whole.touch touches ?_ (fits_of_classOf stored fits touches.has)
  rw [sourceOf, originOf, stored, origin]
  rfl

theorem Whole.pushClass (d : ClassDef) (origin : d.origin = lib.nextClass) (fits : d.Fits lib) :
    lib.Follows (lib.pushClass d) := by
  have touches := touches_pushClass lib d
  have stored := classOf_pushClass_self lib d
  refine whole.touch touches ?_ (fits_of_classOf stored fits touches.has)
  rw [sourceOf_of_absent lib _ (lt_irrefl _), sourceOf, originOf, stored, origin]

theorem Whole.touchOther {x : Entry} (touches : lib.Touches next x)
    (source : next.sourceOf x = lib.sourceOf x) (other : ∀ c, x ≠ .class_ c)
    (entries : ∀ y ∈ (next.outlineOf x).entries, lib.Has y) : lib.Follows next :=
  whole.touch touches source ⟨fun y leads => touches.has y (entries y leads),
    fun c _ is => (other c is).elim, fun c is => (other c is).elim, fun c is => (other c is).elim⟩

theorem Whole.pushSymbol (s : Symbol) (none : s.outline.entries = []) : lib.Follows (lib.pushSymbol s) := by
  refine whole.touchOther (touches_pushSymbol lib s) rfl (by rintro _ ⟨⟩) fun y member => ?_
  rw [outlineOf, symbolOf_pushSymbol_self, none] at member
  cases member

theorem Whole.has_nested {name : Option String} (known : lib.Has (.class_ c))
    (found : (lib.classOf c).classes.find? name = some d) : lib.Has (.class_ d) := by
  refine whole.closed _ _ known (((lib.classOf c).mem_entries _).2 (.inr (.inr (.inl ?_))))
  exact ⟨_, OrderedMap.mem_entries_of_find? _ _ _ found, rfl⟩

theorem Whole.has_descend (names : List String) (known : lib.Has (.class_ c))
    (found : lib.descend c names = some d) : lib.Has (.class_ d) := by
  induction names generalizing c with
  | nil =>
    cases found
    exact known
  | cons name names ih =>
    rw [descend] at found
    cases first : (lib.classOf c).classes.find? (some name) with
    | none => simp [first] at found
    | some e =>
      rw [first] at found
      exact ih (whole.has_nested known first) found

theorem Whole.has_findClass? {names : List String} (known : lib.Has (.class_ c))
    (found : lib.findClass? c names = some d) : lib.Has (.class_ d) := by
  rw [findClass?_scan] at found
  obtain ⟨around, member, found⟩ := List.exists_of_findSome?_eq_some found
  exact whole.has_descend names (chain_induct whole.parent _ _ around known member) found

theorem Whole.has_rootOf (known : lib.Has (.class_ c)) : lib.Has (.class_ (lib.rootOf c)) :=
  rootOf_induct whole.parent c known

end Library

theorem Symbol.entries_setField (s : Symbol) (name : String) (value : Outline) :
    (s.setField name value).outline.entries = s.outline.entries := by
  unfold Symbol.setField
  split <;> simp [Symbol.outline, entries, fieldEntries]

theorem ComponentRef.entries_ofNames (first : String) (rest : List String) :
    (ComponentRef.ofNames first rest).outline.entries = [] := by
  induction rest generalizing first with
  | nil =>
    simp [ComponentRef.ofNames, ComponentRef.simple, ComponentRef.outline, Expr.groupOutlines, entries,
      fieldEntries, itemEntries]
  | cons next rest ih =>
    simp [ComponentRef.ofNames, ComponentRef.outline, Expr.groupOutlines, entries, fieldEntries, itemEntries, ih]

theorem ComponentRef.entries_ofText (text : String) : (ComponentRef.ofText text).outline.entries = [] := by
  unfold ComponentRef.ofText
  split
  · exact entries_ofNames "" []
  · exact entries_ofNames _ _

theorem Symbol.entries_typed (name : String) {r : ComponentRef} (none : r.outline.entries = []) :
    ({ name := name, type := .named r } : Symbol).outline.entries = [] := by
  simp [Symbol.outline, SymbolType.outline, none, entries, fieldEntries, itemEntries, dimensionOutline,
    Expr.outlines, Outline.optional, Expr.outline, Literal.outline, Expr.absent]

-- A change of a library: a copy, or a change by hand. The note of what is copied in place of a class or an
-- argument is not one of the fields that can be set.
inductive Change where
  | copyClass (c : ClassId)
  | copyArgument (a : ArgumentId)
  | find (at_ : ClassId) (r : ComponentRef) (copies builtin : Bool)
  | insertClass (at_ : ClassId) (name : String) (fields : List (String × Outline))
  | eraseClass (at_ : ClassId) (name : String)
  | insertSymbol (at_ : ClassId) (name type : String) (fields : List (String × Outline))
  | eraseSymbol (at_ : ClassId) (name : String)
  | insertEquation (at_ : ClassId) (left right : ComponentRef)
  | eraseEquation (at_ : ClassId) (place : Int)
  | setClass (c : ClassId) (d : ClassDef)
  | setSymbol (s : SymbolId) (d : Symbol)
  | setModification (m : ModificationId) (arguments : List ArgumentId)
  | setArgument (a : ArgumentId) (value : ArgumentValue) (scope : Option ClassId) (redeclare : Bool)

namespace Change

open Build Library

def run : Change → Build Unit
  | .copyClass c => do let _ ← Build.copyClass c
  | .copyArgument a => do let _ ← Build.copyArgument a
  | .find at_ r copies builtin => do let _ ← findWith at_ r copies builtin
  | .insertClass at_ name fields => Build.insertClass at_ name fields
  | .eraseClass at_ name => do let _ ← Build.eraseClass at_ name
  | .insertSymbol at_ name type fields => Build.insertSymbol at_ name type fields
  | .eraseSymbol at_ name => Build.eraseSymbol at_ name
  | .insertEquation at_ left right => Build.insertEquation at_ left right
  | .eraseEquation at_ place => Build.eraseEquation at_ place
  | .setClass c d => updateClass c fun e => { d with origin := e.origin }
  | .setSymbol s d => updateSymbol s fun _ => d
  | .setModification m arguments => updateModification m fun _ => arguments
  | .setArgument a value scope redeclare =>
    updateArgument a fun e => ⟨value, scope, redeclare, e.origin⟩

def Allowed (lib : Library) : Change → Prop
  | .copyClass c | .find c _ _ _ | .insertClass c _ _ | .eraseClass c _ | .insertSymbol c _ _ _
  | .eraseSymbol c _ | .eraseEquation c _ => lib.Has (.class_ c)
  | .copyArgument a => lib.Has (.argument a)
  | .insertEquation c left right => lib.Has (.class_ c) ∧
    (∀ x ∈ left.outline.entries, lib.Has x) ∧ ∀ x ∈ right.outline.entries, lib.Has x
  | .setClass c d => lib.Has (.class_ c) ∧ d.Fits lib
  | .setSymbol s d => lib.Has (.symbol s) ∧ ∀ x ∈ d.outline.entries, lib.Has x
  | .setModification m arguments =>
    lib.Has (.modification m) ∧ ∀ a ∈ arguments, lib.Has (.argument a)
  | .setArgument a value _ _ =>
    lib.Has (.argument a) ∧ ∀ x ∈ value.outline.entries, lib.Has x

end Change

namespace Build

open Library

def Advances {α : Type} (lib : Library) (x : Build α) : Prop :=
  x.Ensures lib (fun _ next => lib.Follows next) fun _ next => lib.Follows next

variable {lib : Library} (whole : lib.Whole)

include whole

omit whole in
theorem checkFields_same (kind : String) (taken : List String) (fields : List (String × Outline)) :
    (checkFields kind taken fields).Ensures lib (fun _ next => lib = next) fun _ next => lib = next := by
  induction fields with
  | nil => exact (ensures_pure ()).2 rfl
  | cons field fields ih =>
    unfold checkFields
    dsimp only
    split
    · rw [ensures_bind, ensures_throw]
    · split
      · exact ih
      · rw [ensures_bind, ensures_throw]

omit whole in
theorem fits_foldl_setField (fields : List (String × Outline)) (d : ClassDef) (fits : d.Fits lib) :
    (fields.foldl (fun d f => d.setField f.1 f.2) d).Fits lib ∧
      (fields.foldl (fun d f => d.setField f.1 f.2) d).origin = d.origin := by
  induction fields generalizing d with
  | nil => exact ⟨fits, rfl⟩
  | cons field fields ih =>
    obtain ⟨after, origin⟩ := ih _ (fits.setField field.1 field.2)
    exact ⟨after, origin.trans (d.origin_setField field.1 field.2)⟩

theorem insertClass_follows (at_ : ClassId) (known : lib.Has (.class_ at_)) (name : String)
    (fields : List (String × Outline)) : Advances lib (insertClass at_ name fields) := by
  unfold Advances insertClass
  refine Ensures.bind ((checkFields_same _ _ _).mono (fun _ _ => id) ?_) ?_
  · rintro _ _ rfl
    exact .refl whole
  rintro _ _ rfl
  rw [ensures_bind, ensures_addClass, bind_updateClass, ensures_updateClass]
  have blank : ({ name := some name, origin := lib.nextClass } : ClassDef).Fits lib := by
    refine ⟨fun x member => ?_, by rintro _ ⟨⟩, by rintro _ ⟨⟩, by rintro _ ⟨⟩⟩
    simp [ClassDef.mem_entries, itemEntries, Equation.outlines, Statement.outlines, OrderedMap.empty] at member
  obtain ⟨fits, origin⟩ := fits_foldl_setField fields _ blank
  generalize fields.foldl (fun (d : ClassDef) f => d.setField f.1 f.2) _ = d at fits origin ⊢
  have first := whole.pushClass d origin fits
  have there : (lib.pushClass d).Has (.class_ lib.nextClass) := by simp [Has, nextClass]
  have second := first.whole.modifyClass (first.has _ known) (fun d =>
    { d with classes := d.classes.insert (some name) lib.nextClass }) rfl
    ((first.whole.classFits (first.has _ known)).setTables _ _ (fun e member =>
      (OrderedMap.mem_entries_insert _ _ _ e member).symm.imp_right (by rintro rfl; exact there)) fun _ => .inl)
  have third := second.whole.modifyClass (second.has _ there) (fun d => { d with parent := some at_ })
    rfl ((second.whole.classFits (second.has _ there)).setParent _ ?_)
  · exact (first.trans second).trans third
  · rintro _ ⟨⟩
    exact second.has _ (first.has _ known)

theorem eraseClass_follows (at_ : ClassId) (known : lib.Has (.class_ at_)) (name : String) :
    Advances lib (eraseClass at_ name) := by
  have same : lib.Follows lib := .refl whole
  unfold Advances eraseClass classEntry
  rw [ensures_bind, bind_classOf]
  cases found : (lib.classOf at_).classes.find? (some name) with
  | none => exact (ensures_throw _).2 same
  | some c =>
    have inner := whole.has_nested known found
    simp only [ensures_pure, ensures_bind, ensures_classOf]
    generalize (lib.classOf c).name = key
    have erased := whole.modifyClass known (fun d => { d with classes := d.classes.erase key }) rfl
      ((whole.classFits known).setTables _ _ (fun _ member => .inl (List.mem_of_mem_filter member)) fun _ => .inl)
    have freed := erased.whole.modifyClass (erased.has _ inner) (fun d => { d with parent := none }) rfl
      ((erased.whole.classFits (erased.has _ inner)).setParent _ (by rintro _ ⟨⟩))
    split
    · simp only [ensures_bind, ensures_updateClass, ensures_pure]
      exact erased.trans freed
    · cases key <;> exact (ensures_throw _).2 same

omit whole in
theorem entries_foldl_setField (fields : List (String × Outline)) (s : Symbol) :
    (fields.foldl (fun s f => s.setField f.1 f.2) s).outline.entries = s.outline.entries := by
  induction fields generalizing s with
  | nil => rfl
  | cons field fields ih => exact (ih _).trans (s.entries_setField field.1 field.2)

section

variable (at_ : ClassId) (known : lib.Has (.class_ at_))
include at_ known

theorem insertSymbol_follows (name type : String) (fields : List (String × Outline)) :
    Advances lib (insertSymbol at_ name type fields) := by
  unfold Advances insertSymbol
  refine Ensures.bind ((checkFields_same _ _ _).mono (fun _ _ => id) ?_) ?_
  · rintro _ _ rfl
    exact .refl whole
  rintro _ _ rfl
  rw [ensures_bind, ensures_addSymbol, ensures_updateClass]
  have first := whole.pushSymbol _ ((entries_foldl_setField fields _).trans
    (Symbol.entries_typed name (ComponentRef.entries_ofText type)))
  exact first.trans (first.whole.modifyClass (first.has _ known) _ rfl
    ((first.whole.classFits (first.has _ known)).setTables _ _ (fun _ => .inl) fun e member =>
      (OrderedMap.mem_entries_insert _ _ _ e member).symm.imp_right fun new => by simp [new, Has, nextSymbol]))

theorem eraseSymbol_follows (name : String) : Advances lib (eraseSymbol at_ name) := by
  have same : lib.Follows lib := .refl whole
  unfold Advances eraseSymbol symbolEntry
  simp only [ensures_bind, ensures_classOf]
  cases (lib.classOf at_).symbols.find? name with
  | none => exact (ensures_throw _).2 same
  | some s =>
    simp only [ensures_pure, ensures_symbolOf]
    cases (lib.classOf at_).symbols.find? (lib.symbolOf s).name with
    | none => exact (ensures_throw _).2 same
    | some t =>
      simp only [ensures_pure, ensures_updateClass]
      exact whole.modifyClass known _ rfl ((whole.classFits known).setTables _ _ (fun _ => .inl)
        fun _ member => .inl (List.mem_of_mem_filter member))

theorem findWith_follows (r : ComponentRef) (copies builtin : Bool) : Advances lib (findWith at_ r copies builtin) := by
  have same : lib.Follows lib := .refl whole
  unfold Advances findWith
  split
  · split
    · unfold builtinClass
      simp only [ensures_bind, ensures_addSymbol, ensures_get, ensures_addClass]
      have first := whole.pushSymbol _ (Symbol.entries_typed "__value"
        (ComponentRef.entries_ofNames (elementaryType r.name) []))
      refine first.trans (first.whole.pushClass _ rfl ⟨fun x member => ?_, ?_, by rintro _ ⟨⟩, by rintro _ ⟨⟩⟩)
      · obtain rfl : .symbol lib.nextSymbol = x := by
          simpa [ClassDef.mem_entries, OrderedMap.empty, OrderedMap.insert, OrderedMap.insertEntry,
            itemEntries, Equation.outlines, Statement.outlines] using member
        simp [Has, nextSymbol]
      · rintro _ ⟨⟩
        exact first.whole.has_rootOf (first.has _ known)
    · exact (ensures_throw _).2 same
  · unfold findClass
    simp only [ensures_bind, ensures_get]
    cases found : lib.findClass? at_ r.names with
    | none => exact (ensures_throw _).2 same
    | some c =>
      simp only [ensures_pure]
      split
      · exact Ensures.mono (copyClass_follows whole (whole.has_findClass? known found))
          (fun _ _ copied => copied.1) fun _ _ => False.elim
      · exact .pure same

theorem eraseEquation_follows (place : Int) : Advances lib (eraseEquation at_ place) := by
  unfold Advances eraseEquation
  simp only [ensures_bind, ensures_classOf]
  generalize (if place < 0 then place + ↑(lib.classOf at_).equations.length else place) = i
  by_cases outside : (decide (i < 0) || decide (↑(lib.classOf at_).equations.length ≤ i)) = true
  · rw [if_pos outside]
    simp only [ensures_bind, ensures_throw]
    exact .refl whole
  · rw [if_neg outside, ensures_updateClass]
    exact whole.modifyClass known _ rfl ((whole.classFits known).setEquations _ fun _ listed =>
      .inl (List.mem_of_mem_eraseIdx listed))

theorem insertEquation_follows (left right : ComponentRef) (leftKnown : ∀ x ∈ left.outline.entries, lib.Has x)
    (rightKnown : ∀ x ∈ right.outline.entries, lib.Has x) : Advances lib (insertEquation at_ left right) := by
  unfold Advances insertEquation
  rw [ensures_updateClass]
  refine whole.modifyClass known _ rfl ((whole.classFits known).setEquations _ fun e listed =>
    (List.mem_append.1 listed).imp_right fun new x member => ?_)
  obtain rfl := List.mem_singleton.1 new
  simp only [Equation.outline, Expr.outline, entries, fieldEntries, List.append_nil, List.mem_append] at member
  exact member.elim (leftKnown x) (rightKnown x)

end

end Build

namespace Change

open Build Library

theorem run_follows {lib : Library} (whole : lib.Whole) (change : Change)
    (allowed : change.Allowed lib) : Advances lib change.run := by
  have done : ∀ next : Library, lib.Follows next → (pure () : Build Unit).Ensures next (fun _ next => lib.Follows next)
        fun _ next => lib.Follows next := fun next follows => (ensures_pure ()).2 follows
  cases change with
  | copyClass c =>
    exact Ensures.bind (Ensures.mono (copyClass_follows whole allowed)
      (fun _ _ copied => copied.1) fun _ _ => False.elim) fun _ => done
  | copyArgument a =>
    exact Ensures.bind (Ensures.mono (copyArgument_follows whole allowed)
      (fun _ _ copied => copied.1) fun _ _ => False.elim) fun _ => done
  | find at_ r copies builtin =>
    exact (findWith_follows whole at_ allowed r copies builtin).bind fun _ => done
  | insertClass at_ name fields => exact insertClass_follows whole at_ allowed name fields
  | eraseClass at_ name => exact (eraseClass_follows whole at_ allowed name).bind fun _ => done
  | insertSymbol at_ name type fields => exact insertSymbol_follows whole at_ allowed name type fields
  | eraseSymbol at_ name => exact eraseSymbol_follows whole at_ allowed name
  | insertEquation at_ left right =>
    exact insertEquation_follows whole at_ allowed.1 left right allowed.2.1 allowed.2.2
  | eraseEquation at_ place => exact eraseEquation_follows whole at_ allowed place
  | setClass c d =>
    refine (ensures_updateClass _ _).2 (whole.modifyClass allowed.1 _ rfl ?_)
    exact ⟨allowed.2.entries, allowed.2.parent, allowed.2.imports, allowed.2.bases⟩
  | setSymbol s d =>
    refine (ensures_updateSymbol _ _).2 (whole.touchOther (touches_modifySymbol lib s _) rfl
      (by rintro _ ⟨⟩) fun y member => allowed.2 y ?_)
    rwa [outlineOf, symbolOf_modifySymbol_self _ _ _ allowed.1] at member
  | setModification m arguments =>
    refine (ensures_updateModification m fun _ => arguments).2 (whole.touchOther
      (touches_modifyModification lib m _) rfl (by rintro _ ⟨⟩) fun y member => ?_)
    rw [outlineOf, modificationOf_modifyModification_self _ _ _ allowed.1] at member
    rw [Modification.outline] at member
    simp only [entries, fieldEntries, List.append_nil, mem_itemEntries] at member
    obtain ⟨a, listed, is⟩ := member
    obtain rfl := List.mem_singleton.1 is
    exact allowed.2 a listed
  | setArgument a value scope redeclare =>
    refine (ensures_updateArgument _ _).2 (whole.touchOther (touches_modifyArgument lib a _) ?_
      (by rintro _ ⟨⟩) fun y member => allowed.2 y ?_)
    · rw [sourceOf, sourceOf, argumentOf_modifyArgument_self _ _ _ allowed.1]
    · rw [outlineOf, argumentOf_modifyArgument_self _ _ _ allowed.1] at member
      simpa [Argument.outline, entries, fieldEntries] using member

end Change

def Build.after {α : Type} (x : Build α) (lib : Library) : Library :=
  match x lib with
  | .ok _ next | .error _ next => next

theorem Build.Ensures.after {α : Type} {x : Build α} {lib : Library} {Q : Library → Prop}
    (ensures : x.Ensures lib (fun _ => Q) fun _ => Q) : Q (x.after lib) := by
  unfold Build.Ensures at ensures
  unfold Build.after
  cases run : x lib <;> rw [run] at ensures <;> exact ensures

-- What a library becomes by changes, one after the other. Some of them may fail.
inductive Library.History (lib : Library) : Library → Prop
  | start : History lib lib
  | step {now : Library} (change : Change) : History lib now → change.Allowed now →
      History lib (change.run.after now)

namespace Library

theorem History.follows {lib now : Library} (whole : lib.Whole) (history : lib.History now) : lib.Follows now := by
  induction history with
  | start => exact .refl whole
  | step change _ allowed ih => exact ih.trans (change.run_follows ih.whole allowed).after

def isWhole (lib : Library) : Bool :=
  (lib.listed.all fun x => (lib.outlineOf x).entries.all (lib.Has ·) && lib.Has (lib.sourceOf x) &&
    lib.sourceOf (lib.sourceOf x) = lib.sourceOf x) &&
  (List.range lib.classes.size).all fun i =>
    (lib.classOf ⟨i⟩).parent.all (lib.Has <| .class_ ·) &&
      (lib.classOf ⟨i⟩).imports.all (·.component.bare) &&
      (lib.classOf ⟨i⟩).extends_.all (·.component.bare)

theorem whole_of_isWhole {lib : Library} (check : lib.isWhole = true) : lib.Whole := by
  simp only [isWhole, List.all_eq_true, Bool.and_eq_true, decide_eq_true_eq, List.mem_range,
    Option.all_eq_true] at check
  obtain ⟨all, classes⟩ := check
  refine .of_fits (fun x has => ⟨(all x (mem_listed has)).1.1, ?_, ?_, ?_⟩)
    (fun x has => (all x (mem_listed has)).1.2) fun x has => (all x (mem_listed has)).2
  · rintro c p rfl parent
    exact (classes c.index has).1.1 p parent
  · rintro c rfl
    exact (classes c.index has).1.2
  · rintro c rfl
    exact (classes c.index has).2

end Library

namespace Build

open Library

-- Whatever has been done to a library by copying and by hand, the copy of a class has the content that the
-- class it was first made from has now. What has become of the class itself makes no difference, unless it is
-- no copy. It is the same with the arguments of modifications.
theorem copies_origin (lib now : Library) (whole : lib.Whole) (history : lib.History now) :
    (∀ k, now.Has (.class_ k) → (lib.Has (.class_ k) → now.originOf k = lib.originOf k) ∧
      copyClass k now = copyClass (now.originOf k) now ∧
      ∃ n next, copyClass k now = .ok n next ∧ next.originOf n = now.originOf k ∧
        ∀ root, now.Tree root → now.Reaches (.class_ root) (.class_ (now.originOf k)) → ∀ depth,
          expand next depth (.entry (.class_ n)) =
            expand now depth (.entry (.class_ (now.originOf k)))) ∧
    ∀ a, now.Has (.argument a) →
      (lib.Has (.argument a) → (now.argumentOf a).origin = (lib.argumentOf a).origin) ∧
      copyArgument a now = copyArgument (now.argumentOf a).origin now ∧
      ∃ b next, copyArgument a now = .ok b next ∧
        (next.argumentOf b).origin = (now.argumentOf a).origin ∧
        (next.argumentOf b).scope = (now.argumentOf (now.argumentOf a).origin).scope ∧
        ∀ root, now.Tree root → now.Reaches (.class_ root) (.argument (now.argumentOf a).origin) →
          ∀ depth, expand next depth (.entry (.argument b)) =
            expand now depth (.entry (.argument (now.argumentOf a).origin)) := by
  have follows := history.follows whole
  refine ⟨fun k known => ⟨fun old => ?_, ?_⟩, fun a known => ⟨fun old => ?_, ?_⟩⟩
  · simpa [sourceOf] using follows.source (.class_ k) old
  · have settled := follows.whole.settled (.class_ k) known
    have same := copyClass_origin now k (by simpa [sourceOf] using settled)
    obtain ⟨n, next, run, -, -, origin⟩ := (copyClass_follows follows.whole known).exists
    refine ⟨same, n, next, run, origin, fun root tree inside depth => ?_⟩
    obtain ⟨R, mirror, related⟩ := (ensures_of_eq (same ▸ run)).1 (copyClass_mirror tree inside)
    exact mirror.expand_eq depth _ _ ((alike_entry R _ _).2 related)
  · simpa [sourceOf] using follows.source (.argument a) old
  · have settled := follows.whole.settled (.argument a) known
    have same := copyArgument_origin now a (by simpa [sourceOf] using settled)
    obtain ⟨b, next, run, -, origin, scope⟩ := (copyArgument_follows follows.whole known).exists
    refine ⟨same, b, next, run, origin, scope, fun root tree inside depth => ?_⟩
    obtain ⟨R, mirror, related⟩ := (ensures_of_eq (same ▸ run)).1 (copyArgument_mirror tree inside)
    exact mirror.expand_eq depth _ _ ((alike_entry R _ _).2 related)

def nestedEdited : Library :=
  (Change.insertSymbol ⟨3⟩ "y" "Real" []).run.after ((Change.copyClass ⟨2⟩).run.after nested)

theorem nestedEdited_copied : nested.Whole ∧ nested.History nestedEdited ∧ nestedEdited.Tree ⟨0⟩ ∧
    ∃ n next, copyClass ⟨3⟩ nestedEdited = .ok n next ∧ next.originOf n = ⟨2⟩ ∧
      ∀ depth, expand next depth (.entry (.class_ n)) =
        expand nestedEdited depth (.entry (.class_ ⟨2⟩)) := by
  have whole : nested.Whole := whole_of_isWhole (by decide +kernel)
  have copied : nested.Has (.class_ ⟨2⟩) := by decide +kernel
  have edited : ((Change.copyClass ⟨2⟩).run.after nested).Has (.class_ ⟨3⟩) := by decide +kernel
  have history : nested.History nestedEdited := .step _ (.step _ .start copied) edited
  have tree : nestedEdited.Tree ⟨0⟩ := tree_of_isTree [.class_ ⟨0⟩, .class_ ⟨1⟩, .class_ ⟨2⟩,
    .symbol ⟨0⟩, .modification ⟨0⟩, .argument ⟨0⟩] (by decide +kernel)
  have inside : nestedEdited.Reaches (.class_ ⟨0⟩) (.class_ ⟨2⟩) :=
    .tail (.single (b := .class_ ⟨1⟩) (by decide +kernel)) (by decide +kernel)
  have origin : nestedEdited.originOf ⟨3⟩ = ⟨2⟩ := by decide +kernel
  obtain ⟨-, -, n, next, run, same, content⟩ :=
    (copies_origin nested nestedEdited whole history).1 ⟨3⟩ (by decide +kernel)
  rw [origin] at same content
  exact ⟨whole, history, tree, n, next, run, same, content ⟨0⟩ tree inside⟩

-- The second component of the copy is lost when the copy is copied.
theorem nestedEdited_loses : (nestedEdited.classOf ⟨3⟩).symbols.keys = ["x", "y"] ∧
    ∃ n next, copyClass ⟨3⟩ nestedEdited = .ok n next ∧ (next.classOf n).symbols.keys = ["x"] := by
  refine ⟨by decide +kernel, ?_⟩
  obtain ⟨n, next, run, found⟩ := exists_of_passes (copyClass ⟨3⟩) nestedEdited
    (fun n next => decide ((next.classOf n).symbols.keys = ["x"])) (by decide +kernel)
  exact ⟨n, next, run, of_decide_eq_true found⟩

end Build

end Modelica
