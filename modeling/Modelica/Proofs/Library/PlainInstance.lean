import Modelica.Proofs.Library.Plain
import Modelica.Proofs.OrderedMap

set_option autoImplicit false

namespace Modelica

namespace Library

def takeOver (lib : Library) (id other : ClassId) : Library :=
  let next := lib.modifyClass id fun d => d.merge (lib.classOf other)
  match (next.classOf id).annotated, (lib.classOf other).annotated with
  | some m, some n => next.modifyModification m (· ++ (next.modificationOf n).arguments)
  | _, _ => next

theorem classOf_takeOver_self (lib : Library) (id other : ClassId) (known : id.In lib) :
    (lib.takeOver id other).classOf id = (lib.classOf id).merge (lib.classOf other) := by
  unfold takeOver
  dsimp only
  split <;> exact classOf_modifyClass_self lib id _ known

end Library

namespace Build

open Library

section Constants

variable {lib : Library} {c : ClassId}

theorem mem_children (e child : Entry) : child ∈ lib.children e ↔ .entry child ∈ lib.parts e := by
  unfold children
  rw [List.mem_filterMap]
  constructor
  · rintro ⟨_ | _, member, same⟩
    · contradiction
    · cases same
      exact member
  · exact fun member => ⟨_, member, rfl⟩

theorem cases_of_shallow (n : Nat) (e : Entry) (shallow : lib.Shallow n e) :
    (∃ m, e = .modification m) ∨ ∃ a, e = .argument a := by
  cases e with
  | modification m => exact .inl ⟨m, rfl⟩
  | argument a => exact .inr ⟨a, rfl⟩
  | class_ d | symbol s => cases n <;> exact shallow.elim

theorem below_of_shallow (n : Nat) (e : Entry) (shallow : lib.Shallow n e) :
    (∀ d, e ≠ .class_ d) ∧ ∃ k, n = k + 1 ∧ ∀ child, .entry child ∈ lib.parts e → lib.Shallow k child := by
  cases n with
  | zero => cases e <;> exact shallow.elim
  | succ k =>
    obtain ⟨m, rfl⟩ | ⟨a, rfl⟩ := cases_of_shallow _ e shallow
    all_goals exact ⟨fun _ => Entry.noConfusion, k, rfl, fun e part => shallow.2 e ((mem_children _ e).2 part)⟩

theorem children_of_empty (m : ModificationId) (empty : (lib.modificationOf m).arguments = []) :
    lib.children (.modification m) = [] := by
  simp [children, Library.parts, Library.pieces, empty]

theorem shallow_of_empty (lib : Library) (n : Nat) (m : ModificationId)
    (known : m.In lib) (empty : (lib.modificationOf m).arguments = []) :
    lib.Shallow (n + 1) (.modification m) := by
  refine ⟨known, ?_⟩
  rw [children_of_empty m empty]
  exact fun _ => nofun

theorem children_of_member (keys : List String) (name : String) (s : SymbolId)
    (member : lib.IsMember keys name s) (child : Entry)
    (below : child ∈ lib.children (.symbol s)) :
    ∃ m, child = .modification m ∧ m.In lib ∧ (lib.modificationOf m).arguments = [] := by
  obtain ⟨r, type, _⟩ := member.type
  have none : ∀ e ∈ (lib.symbolOf s).exprs, .entry child ∉ e.parts := by
    intro e inside part
    have : child ∈ e.parts.filterMap Part.entry? := List.mem_filterMap.2 ⟨_, part, rfl⟩
    rw [e.entries_of_bare (member.bare e inside)] at this
    contradiction
  rw [mem_children] at below
  simp only [Library.parts, Library.pieces, Symbol.pieces, List.mem_flatMap, List.mem_append] at below
  obtain ⟨piece, ((written | attribute_) | changed) | connected, part⟩ := below
  · rw [type] at written
    obtain rfl := List.mem_singleton.1 written
    simp [Piece.parts, Expr.parts] at part
  · obtain ⟨e, inside, rfl⟩ := List.mem_map.1 attribute_
    exact absurd part (none e inside)
  · obtain ⟨m, has, rfl⟩ := List.mem_map.1 changed
    exact ⟨m, by simpa [Piece.parts] using part, member.idle m (Option.mem_toList.1 has)⟩
  · rw [member.connectorType] at connected
    simp at connected

variable (plain : lib.Plain c)
include plain

theorem findClass?_of_plain (name : String) (rest : List String) :
    lib.findClass? c (name :: rest) = none := by
  have around : lib.enclosing c = [c] := by
    unfold enclosing chain
    rw [plain.parent]
  have table : (lib.classOf c).classes = ⟨[]⟩ := by
    rw [← plain.classes]
  rw [findClass?_scan, around, List.findSome?_cons, descend, table]
  rfl

theorem constantsIn_of_parts (found : OrderedMap String SymbolId) (fuel : Nat) (parts : List Part)
    (still : ∀ e, .entry e ∈ parts → (∀ d, e ≠ .class_ d) ∧
      (constantsIn fuel c found (lib.parts e)).Returns lib fun result next => result = found ∧ next = lib) :
    (constantsIn (fuel + 1) c found parts).Returns lib fun result next => result = found ∧ next = lib := by
  refine constantsIn_step ?_ fuel found parts (fun r _ => .inr (findClass?_of_plain plain r.name [])) still
  rintro s listed
  obtain ⟨entry, member, rfl⟩ := List.mem_map.1 listed
  obtain ⟨q, type, _⟩ := (plain.members entry member).type
  obtain ⟨rest, names⟩ := q.names_eq_cons
  exact ⟨q, type, names ▸ findClass?_of_plain plain _ rest⟩

theorem constantsIn_of_shallow (found : OrderedMap String SymbolId)
    (fuel : Nat) (parts : List Part) (shallow : ∀ e, .entry e ∈ parts → lib.Shallow fuel e) :
    (constantsIn (fuel + 1) c found parts).Returns lib fun result next => result = found ∧ next = lib := by
  induction fuel generalizing parts
  all_goals
    refine constantsIn_of_parts plain found _ parts fun e member => ?_
    obtain ⟨other, k, same, below⟩ := below_of_shallow _ e (shallow e member)
    cases same
  next ih => exact ⟨other, ih _ below⟩

theorem children_of_plain (child : Entry) (below : child ∈ lib.children (.class_ c)) :
    (∃ entry ∈ (lib.classOf c).symbols.entries, child = .symbol entry.2) ∨ lib.Shallow lib.size child ∨
      ∃ environment, (lib.classOf c).role = .instance_ environment ∧ child = .modification environment := by
  have noEquations : Equation.allExprs [] = [] := rfl
  have noStatements : Statement.allExprs [] = [] := rfl
  rw [mem_children] at below
  simp only [Library.parts, Library.pieces, ClassDef.pieces, plain.bases, OrderedMap.values,
    plain.classes, plain.functions, plain.initialEquations, plain.equations, plain.constraints,
    plain.initialStatements, plain.statements, noEquations, noStatements, List.flatMap_nil,
    List.map_nil, List.append_nil, List.mem_flatMap, List.mem_append] at below
  obtain ⟨piece, (((imported | component) | noted) | aimed) | waiting, part⟩ := below
  · obtain ⟨i, _, rfl⟩ := List.mem_map.1 imported
    simp [Piece.parts, Expr.parts] at part
  · obtain ⟨s, inside, rfl⟩ := List.mem_map.1 component
    obtain ⟨entry, member, rfl⟩ := List.mem_map.1 inside
    exact .inl ⟨entry, member, by simpa [Piece.parts] using part⟩
  · obtain ⟨m, has, rfl⟩ := List.mem_map.1 noted
    obtain rfl : child = .modification m := by simpa [Piece.parts] using part
    exact .inr (.inl (plain.annotated m (Option.mem_toList.1 has)))
  · obtain ⟨m, has, rfl⟩ := List.mem_map.1 aimed
    obtain rfl : child = .modification m := by simpa [Piece.parts] using part
    exact .inr (.inl (plain.optimization m (Option.mem_toList.1 has)))
  · split at waiting
    · next environment role =>
      obtain rfl := List.mem_singleton.1 waiting
      exact .inr (.inr ⟨environment, role, by simpa [Piece.parts] using part⟩)
    · simp at waiting

theorem pullConstants_of_plain (environment : ModificationId)
    (role : (lib.classOf c).role = .instance_ environment) (quiet : lib.Shallow lib.size (.modification environment)) :
    (pullConstants c).Returns lib fun _ next => next = lib := by
  have deep : ∀ e, lib.Shallow lib.size e → (∀ d, e ≠ .class_ d) ∧ (constantsIn lib.size c .empty (lib.parts e)).Returns
      lib fun result next => result = .empty ∧ next = lib := by
    intro e shallow
    obtain ⟨other, k, same, below⟩ := below_of_shallow _ e shallow
    rw [same]
    exact ⟨other, constantsIn_of_shallow plain .empty k _ below⟩
  refine pullConstants_still role (constantsIn_of_parts plain .empty lib.size _ fun e part => ?_)
  obtain ⟨entry, member, rfl⟩ | shallow | ⟨m, has, rfl⟩ := children_of_plain plain e ((mem_children _ e).2 part)
  · refine ⟨fun _ => Entry.noConfusion, ?_⟩
    have component := plain.members entry member
    obtain ⟨n, room⟩ : ∃ n, lib.size = n + 1 + 1 := ⟨lib.size - 2, by
      have := plain.known
      have := component.known
      unfold size
      omega⟩
    rw [room]
    refine constantsIn_of_shallow plain .empty (n + 1) _ fun e part => ?_
    obtain ⟨m, rfl, known, empty⟩ := children_of_member _ _ _ component e ((mem_children _ e).2 part)
    exact shallow_of_empty lib n m known empty
  · exact deep e shallow
  · obtain rfl : m = environment := by
      rw [role] at has
      cases has
      rfl
    exact deep _ quiet

end Constants

section Instance

variable {lib : Library} {c : ClassId}

variable {good : Unit → Library → Prop} {bad : Error → Library → Prop} {now : Library} {k : ClassId}
  {notes waiting : ModificationId}

@[simp] theorem ensures_appendArguments (m : ModificationId) (as : List ArgumentId) :
    (appendArguments m as).Ensures lib good bad ↔ good () (lib.modifyModification m (· ++ as)) := by
  simp only [appendArguments, ensures_updateModification]

@[simp] theorem ensures_takeOver (id other : ClassId) :
    (takeOver id other).Ensures lib good bad ↔ good () (lib.takeOver id other) := by
  unfold takeOver Library.takeOver
  simp only [ensures_bind, ensures_classOf, ensures_updateClass]
  generalize ((lib.modifyClass id fun d => d.merge (lib.classOf other)).classOf id).annotated = own
  generalize (lib.classOf other).annotated = taken
  cases own with
  | none => exact ensures_pure ()
  | some m =>
    cases taken with
    | none => exact ensures_pure ()
    | some n => simp only [ensures_bind, ensures_argumentsOf, ensures_appendArguments]

structure IsTree (lib : Library) (c : ClassId) (now : Library) (k : ClassId) : Prop where
  later : lib.Later now
  new : lib.classes.size ≤ k.index
  plain : now.Plain k
  symbols : (now.classOf k).symbols = (lib.classOf c).symbols
  environment : ∃ m, (now.classOf k).role = .instance_ m ∧ m.index < now.modifications.size ∧
    (now.modificationOf m).arguments = []

structure IsBlank (lib now : Library) (k : ClassId) (notes waiting : ModificationId) :
    Prop where
  later : lib.Later now
  new : lib.classes.size ≤ k.index
  known : k.index < now.classes.size
  blank : ∃ name type, now.classOf k =
    { name := name, type := type, annotated := some notes, role := .instance_ waiting, origin := k }
  symbols : ∀ s, now.symbolOf s = lib.symbolOf s
  newNotes : lib.modifications.size ≤ notes.index
  different : notes ≠ waiting
  knownNotes : notes.index < now.modifications.size
  emptyNotes : (now.modificationOf notes).arguments = []
  knownWaiting : waiting.index < now.modifications.size
  emptyWaiting : (now.modificationOf waiting).arguments = []

theorem size_pos (lib : Library) (m : ModificationId) (known : m.In lib) : 1 ≤ lib.size := by
  unfold Library.size
  omega

theorem known_of_shallow (lib : Library) (n : Nat) (m : ModificationId)
    (shallow : lib.Shallow n (.modification m)) : m.In lib := by
  cases n with
  | zero => exact shallow.elim
  | succ n => exact shallow.1

theorem shallow_of_arguments (lib : Library) (n : Nat) (m m' : ModificationId)
    (known : m.In lib)
    (same : (lib.modificationOf m).arguments = (lib.modificationOf m').arguments)
    (shallow : lib.Shallow n (.modification m')) : lib.Shallow n (.modification m) := by
  cases n with
  | zero => exact shallow
  | succ n =>
    refine ⟨known, ?_⟩
    have children : lib.children (.modification m) = lib.children (.modification m') := by
      simp only [Library.children, Library.parts, Library.pieces, same]
    rw [children]
    exact shallow.2

section

variable (blank : IsBlank lib now k notes waiting)
include blank

theorem takeOver_of_blank (c : ClassId) : now.takeOver k c =
      let next := now.modifyClass k fun d => d.merge (now.classOf c)
      match (now.classOf c).annotated with
      | some n => next.modifyModification notes (· ++ (now.modificationOf n).arguments)
      | none => next := by
  obtain ⟨name, type, same⟩ := blank.blank
  unfold Library.takeOver
  dsimp only
  rw [classOf_modifyClass_self now k _ blank.known, same]
  simp only [ClassDef.merge]
  cases (now.classOf c).annotated <;> rfl

theorem later_takeOver (c : ClassId) : lib.Later (now.takeOver k c) := by
  have merged := blank.later.modifyClass k blank.new fun d => d.merge (now.classOf c)
  rw [takeOver_of_blank blank]
  dsimp only
  split
  · refine merged.modifyModification notes blank.newNotes ?_ _
    intro s known idle has
    have old : (now.symbolOf s).modification = some notes := has
    rw [blank.symbols s] at old
    have := (idle notes old).1
    have := blank.newNotes
    omega
  · exact merged

variable (plain : lib.Plain c)
include plain

theorem notes_takeOver :
    (now.takeOver k c).Shallow (now.takeOver k c).size (.modification notes) := by
  have later := later_takeOver blank c
  have same := blank.later.classOf c plain.known
  cases has : (lib.classOf c).annotated with
  | none =>
    rw [takeOver_of_blank blank]
    simp only [same, has]
    have empty := shallow_of_empty (now.modifyClass k fun d => d.merge (lib.classOf c)) 0 notes
      blank.knownNotes blank.emptyNotes
    refine Shallow.mono _ 1 _ ?_ _ empty
    exact size_pos _ notes (by exact blank.knownNotes)
  | some n =>
    have shallow := plain.annotated n has
    have deep := shallow.grow later
    have knownOld := known_of_shallow lib _ n shallow
    refine shallow_of_arguments _ _ notes n ?_ ?_ deep
    · rw [takeOver_of_blank blank]
      simp only [same, has, ModificationId.In, modifications_size_modifyModification]
      exact blank.knownNotes
    · rw [later.modificationOf n knownOld, takeOver_of_blank blank]
      simp only [same, has]
      have taken := modificationOf_modifyModification_self (now.modifyClass k fun d => d.merge (lib.classOf c)) notes
        (· ++ (now.modificationOf n).arguments) blank.knownNotes
      have none : ((now.modifyClass k fun d => d.merge (lib.classOf c)).modificationOf
        notes).arguments = [] := blank.emptyNotes
      rw [taken, none, List.nil_append, blank.later.modificationOf n knownOld]

theorem isTree_takeOver :
    IsTree lib c (now.takeOver k c) k := by
  obtain ⟨name, type, same⟩ := blank.blank
  have later := later_takeOver blank c
  have merged := classOf_takeOver_self now k c blank.known
  rw [same, blank.later.classOf c plain.known] at merged
  have symbols : ((now.takeOver k c).classOf k).symbols = (lib.classOf c).symbols := by
    rw [merged]
    exact OrderedMap.empty_union _ plain.unique
  refine ⟨later, blank.new, ?_, symbols, waiting, by rw [merged]; rfl, ?_⟩
  · constructor
    case known =>
      rw [takeOver_of_blank blank]
      dsimp only
      split <;> exact (now.classes_size_modifyClass k _).symm ▸ blank.known
    case members =>
      rw [symbols]
      exact fun e member => IsMember.later later _ _ _ (plain.members e member)
    case unique => rw [symbols]; exact plain.unique
    all_goals rw [merged]
    case parent => rfl
    case bases => rfl
    case classes => simp [ClassDef.merge, OrderedMap.union, plain.classes]
    case functions => simp [ClassDef.merge, OrderedMap.union, plain.functions]
    case initialEquations => simp [ClassDef.merge, plain.initialEquations]
    case equations => simp [ClassDef.merge, plain.equations]
    case constraints => simp [ClassDef.merge, plain.constraints]
    case initialStatements => simp [ClassDef.merge, plain.initialStatements]
    case statements => simp [ClassDef.merge, plain.statements]
    case annotated =>
      rintro m has
      obtain rfl : notes = m := Option.some_inj.1 has
      exact notes_takeOver blank plain
    case optimization => simp [ClassDef.merge]
  · rw [takeOver_of_blank blank]
    dsimp only
    split
    · rw [modifications_size_modifyModification, modificationOf_modifyModification_ne _ notes waiting _ blank.different]
      exact ⟨blank.knownWaiting, blank.emptyWaiting⟩
    · exact ⟨blank.knownWaiting, blank.emptyWaiting⟩

end

theorem mergeBases_of_plain (plain : lib.Plain c) (definition : (lib.classOf c).role = .definition)
    (type : (lib.classOf c).type ≠ "__builtin") (fuel : Nat) :
    (mergeBases (fuel + 1) c none (lib.classOf c).parent).Returns lib fun k now => IsTree lib c now k := by
  have sizes : ((lib.pushModification []).pushModification []).modifications.size = lib.modifications.size + 2 := by
    rw [modifications_size_pushModification, modifications_size_pushModification]
  have blank : IsBlank lib (((lib.pushModification []).pushModification []).pushClass
      { name := (lib.classOf c).name
        type := (lib.classOf c).type
        annotated := some lib.nextModification
        role := .instance_ (lib.pushModification []).nextModification
        origin := ((lib.pushModification []).pushModification []).nextClass })
      lib.nextClass lib.nextModification (lib.pushModification []).nextModification := {
    later := (((Later.refl lib).pushModification []).pushModification []).pushClass _
    new := le_rfl
    known := nextClass_lt ..
    blank := ⟨_, _, classOf_pushClass_self _ _⟩
    symbols := fun _ => rfl
    newNotes := le_rfl
    different := fun same => absurd (congrArg ModificationId.index same) (by simp [nextModification])
    knownNotes := sizes ▸ Nat.lt_add_of_pos_right (by omega)
    emptyNotes := by
      have first := modificationOf_pushModification_self lib []
      have second := modificationOf_pushModification_ne (lib.pushModification [])
        lib.nextModification [] (by simp [nextModification])
      exact congrArg Modification.arguments (second.trans first)
    knownWaiting := by
      have := modifications_size_pushModification lib []
      refine Nat.lt_of_lt_of_eq ?_ sizes.symm
      simp only [nextModification]
      omega
    emptyWaiting := congrArg Modification.arguments
      (modificationOf_pushModification_self (lib.pushModification []) []) }
  have tree := isTree_takeOver blank plain
  unfold mergeBases
  simp only [Returns, ensures_bind, ensures_classOf, ensures_addModification, definition,
    ensures_addClass, plain.bases, plain.parent, List.forIn_nil, ensures_pure, ensures_takeOver,
    modifyValue]
  rw [if_neg]
  · exact .pure tree
  · intro builtin
    refine type ?_
    rw [← builtin]
    have merged := classOf_takeOver_self _ lib.nextClass c blank.known
    exact (congrArg ClassDef.type (merged.trans (congrArg (ClassDef.merge · _) (classOf_pushClass_self _ _)))).symm

theorem IsTree.after {next : Library} (tree : IsTree lib c now k) (after : now.Later next) : IsTree lib c next k := by
  have same := after.classOf k tree.plain.known
  obtain ⟨m, role, known, empty⟩ := tree.environment
  refine ⟨tree.later.trans after, tree.new, tree.plain.later after, ?_, m, ?_, ?_, ?_⟩
  · rw [same, tree.symbols]
  · rw [same, role]
  · exact known.trans_le after.moreModifications
  · rw [after.modificationOf m known, empty]

theorem componentClass_of_member (k : ClassId) (keys : List String) (name : String) (s : SymbolId)
    (member : now.IsMember keys name s) {good : Option ClassId → Library → Prop}
    (holds : good none now) : (componentClass k s).Ensures now good bad := by
  obtain ⟨r, type, elementary, _⟩ := member.type
  simp only [componentClass, ensures_bind, ensures_symbolOf, type, ensures_tryCatch, ensures_map,
    instantiable, elementary, if_true, ensures_throw, ensures_pure]
  exact holds

theorem takeArguments_of_empty (m : ModificationId) (name : String)
    (empty : (now.modificationOf m).arguments = []) {good : List ArgumentId → Library → Prop}
    (holds : good [] now) : (takeArguments m name).Ensures now good bad := by
  simp only [takeArguments, ensures_bind, ensures_get, ensures_updateModification, ensures_pure, empty, List.filter_nil]
  rw [now.modifyModification_eq_self m _ (by simp [empty])]
  exact holds

theorem modifyMore_nothing (now : Library) (s : SymbolId) :
    (modifyMore s []).Ensures now (fun _ next => now.Later next) bad := by
  simp only [modifyMore, ensures_bind, ensures_symbolOf]
  split
  · next m has =>
    simp only [ensures_appendArguments]
    rw [now.modifyModification_eq_self m _ (by simp)]
    exact .refl now
  · simp only [ensures_bind, ensures_addModification, ensures_updateSymbol]
    refine ((Later.refl now).pushModification []).modifySymbol s _ fun _ => ⟨rfl, ?_⟩
    rintro m has
    obtain rfl : now.nextModification = m := Option.some_inj.1 has
    refine ⟨?_, congrArg Modification.arguments (modificationOf_pushModification_self now [])⟩
    exact nextModification_lt ..

theorem instantiate_of_plain (plain : lib.Plain c) (definition : (lib.classOf c).role = .definition)
    (type : (lib.classOf c).type ≠ "__builtin") (fuel : Nat) :
    (instantiate (fuel + 1) c none (lib.classOf c).parent).Returns lib fun k now => IsTree lib c now k := by
  unfold instantiate Returns
  rw [ensures_bind]
  refine Ensures.imp (mergeBases_of_plain plain definition type fuel) ?_
  intro k now tree
  obtain ⟨m, role, known, empty⟩ := tree.environment
  simp only [environmentOf, ensures_bind, ensures_classOf, role, ensures_pure,
    ensures_argumentsOf, empty, List.forIn_nil, ensures_get, ensures_updateModification]
  rw [now.modifyModification_eq_self m _ (by simp [empty])]
  simp only [tree.plain.classes, List.forIn_nil, ensures_pure, empty]
  refine ensures_forIn _ _ _ (fun _ _ next => IsTree lib c next k ∧
    m.In next ∧ (next.modificationOf m).arguments = [])
    ⟨tree, known, empty⟩ ?_ ?_
  · rintro done ⟨name, s⟩ rest ⟨⟩ mid all ⟨same, known, empty⟩
    have entry : (name, s) ∈ (mid.classOf k).symbols.entries := by
      rw [same.symbols, ← tree.symbols, all]
      simp
    dsimp only
    unfold instantiateSymbol
    rw [ensures_bind, ensures_bind]
    refine componentClass_of_member k _ name s (same.plain.members _ entry) ?_
    dsimp only
    rw [ensures_bind]
    refine takeArguments_of_empty m name empty ?_
    simp only [componentArguments, List.forIn_nil, ensures_bind, ensures_pure]
    refine (modifyMore_nothing mid s).imp ?_
    intro _ next after
    exact ⟨same.after after, known.trans_le after.moreModifications, by rw [after.modificationOf m known, empty]⟩
  · rintro ⟨⟩ last ⟨same, _, _⟩
    rw [same.later.classOf c plain.known]
    split
    · next aims has =>
      simp only [ensures_bind, ensures_updateClass, ensures_pure]
      have shallow := (plain.optimization aims has).grow same.later
      have self := (classOf_modifyClass_self last k · same.plain.known)
      refine ⟨same.later.modifyClass k same.new _, same.new, same.plain.withOptimization k aims shallow, ?_, ?_⟩
      · rw [self, same.symbols]
      · rw [self]
        exact same.environment
    · exact (ensures_pure k).2 same

end Instance

end Build

end Modelica
