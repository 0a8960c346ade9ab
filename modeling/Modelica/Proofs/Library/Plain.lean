import Modelica.Library.Flat
import Modelica.Proofs.Expr.Literal
import Modelica.Proofs.Library.Reach

set_option autoImplicit false

namespace Modelica.Library

def Shallow (lib : Library) : Nat → Entry → Prop
  | n + 1, .modification m =>
    m.index < lib.modifications.size ∧ ∀ e ∈ lib.children (.modification m), lib.Shallow n e
  | n + 1, .argument a =>
    a.index < lib.arguments.size ∧ ∀ e ∈ lib.children (.argument a), lib.Shallow n e
  | _, _ => False

-- A component of a built-in type in which nothing waits and nothing stands by number. Its type is no name of a
-- component.
structure IsMember (lib : Library) (keys : List String) (name : String) (s : SymbolId) : Prop where
  known : s.index < lib.symbols.size
  name : (lib.symbolOf s).name = name
  type : ∃ r, (lib.symbolOf s).type = .named r ∧ elementaryNames.contains r.name = true ∧
    r.bare = true ∧ (r.child = none ∧ allLiteral r.subscripts = true ∨ r.text ∉ keys)
  bare : ∀ e ∈ (lib.symbolOf s).exprs, e.bare = true
  idle : lib.Idle s
  connectorType : (lib.symbolOf s).connectorType = none

structure Plain (lib : Library) (c : ClassId) : Prop where
  known : c.index < lib.classes.size
  parent : (lib.classOf c).parent = none
  bases : (lib.classOf c).extends_ = []
  classes : (lib.classOf c).classes.entries = []
  functions : (lib.classOf c).functions.entries = []
  initialEquations : (lib.classOf c).initialEquations = []
  equations : (lib.classOf c).equations = []
  constraints : (lib.classOf c).constraints = []
  initialStatements : (lib.classOf c).initialStatements = []
  statements : (lib.classOf c).statements = []
  unique : (lib.classOf c).symbols.keys.Nodup
  members : ∀ e ∈ (lib.classOf c).symbols.entries,
    lib.IsMember (lib.classOf c).symbols.keys e.1 e.2
  annotated : ∀ m, (lib.classOf c).annotated = some m → lib.Shallow lib.size (.modification m)
  optimization : ∀ m, (lib.classOf c).optimization = some m →
    lib.Shallow lib.size (.modification m)

section Tables

variable {lib next : Library}
  (modifications : ∀ m, m.index < lib.modifications.size →
    m.index < next.modifications.size ∧ next.modificationOf m = lib.modificationOf m)
  (arguments : ∀ a, a.index < lib.arguments.size →
    a.index < next.arguments.size ∧ next.argumentOf a = lib.argumentOf a)

include modifications arguments

theorem Shallow.of_tables (n : Nat) (e : Entry) (shallow : lib.Shallow n e) : next.Shallow n e := by
  induction n generalizing e with
  | zero => cases e <;> exact shallow
  | succ n ih =>
    cases e with
    | modification m =>
      obtain ⟨known, below⟩ := shallow
      have same : next.children (.modification m) = lib.children (.modification m) := by
        simp only [children, parts, pieces, (modifications m known).2]
      exact ⟨(modifications m known).1, fun e child => ih e (below e (same ▸ child))⟩
    | argument a =>
      obtain ⟨known, below⟩ := shallow
      have same : next.children (.argument a) = lib.children (.argument a) := by
        simp only [children, parts, pieces, (arguments a known).2]
      exact ⟨(arguments a known).1, fun e child => ih e (below e (same ▸ child))⟩
    | class_ c | symbol s => exact shallow

end Tables

section Later

variable {lib next : Library} (after : lib.Later next)

include after

theorem Later.size_le : lib.size ≤ next.size := by
  have := after.moreClasses
  have := after.moreSymbols
  have := after.moreModifications
  have := after.moreArguments
  unfold size
  omega

theorem Shallow.later (n : Nat) (e : Entry) (shallow : lib.Shallow n e) : next.Shallow n e :=
  Shallow.of_tables (fun m known => ⟨known.trans_le after.moreModifications, after.modificationOf m known⟩)
    (fun a known => ⟨known.trans_le after.moreArguments, after.argumentOf a known⟩)
    n e shallow

omit after in
theorem IsMember.of_alike {keys : List String} {name : String} {s t : SymbolId} (member : lib.IsMember keys name s)
    (known : t.In next) (alike : (next.symbolOf t).Alike (lib.symbolOf s)) (idle : next.Idle t) :
    next.IsMember keys name t where
  known := known
  name := (alike.apply Symbol.name fun _ => rfl).trans member.name
  type := by
    rw [alike.apply Symbol.type fun _ => rfl]
    exact member.type
  bare := by
    rw [alike.apply Symbol.exprs fun _ => rfl]
    exact member.bare
  idle := idle
  connectorType := (alike.apply Symbol.connectorType fun _ => rfl).trans member.connectorType

theorem IsMember.later (keys : List String) (name : String) (s : SymbolId)
    (member : lib.IsMember keys name s) : next.IsMember keys name s :=
  member.of_alike (member.known.trans_le after.moreSymbols) (after.symbolOf s member.known)
    (after.idle s member.known member.idle)

end Later

theorem Shallow.mono (lib : Library) (n m : Nat) (enough : n ≤ m) (e : Entry)
    (shallow : lib.Shallow n e) : lib.Shallow m e := by
  induction n generalizing m e with
  | zero => cases e <;> exact shallow.elim
  | succ n ih =>
    obtain _ | k := m
    · omega
    cases e with
    | modification m | argument a => exact ⟨shallow.1, fun e child => ih k (by omega) e (shallow.2 e child)⟩
    | class_ c | symbol s => exact shallow

theorem Shallow.grow {lib next : Library} (after : lib.Later next) {e : Entry}
    (shallow : lib.Shallow lib.size e) : next.Shallow next.size e :=
  Shallow.mono next _ _ after.size_le _ (Shallow.later after _ _ shallow)

theorem Plain.carry {lib next : Library} {c : ClassId} (plain : lib.Plain c)
    (n : Option ModificationId) (known : c.In next)
    (same : next.classOf c = { lib.classOf c with optimization := n })
    (members : ∀ keys name s, lib.IsMember keys name s → next.IsMember keys name s)
    (notes : ∀ m, lib.Shallow lib.size (.modification m) → next.Shallow next.size (.modification m))
    (optimization : ∀ m, n = some m → lib.Shallow lib.size (.modification m)) : next.Plain c := by
  constructor
  case known => exact known
  all_goals rw [same]
  case parent => exact plain.parent
  case bases => exact plain.bases
  case classes => exact plain.classes
  case functions => exact plain.functions
  case initialEquations => exact plain.initialEquations
  case equations => exact plain.equations
  case constraints => exact plain.constraints
  case initialStatements => exact plain.initialStatements
  case statements => exact plain.statements
  case unique => exact plain.unique
  case members => exact fun e member => members _ _ _ (plain.members e member)
  case annotated => exact fun m has => notes m (plain.annotated m has)
  case optimization => exact fun m has => notes m (optimization m has)

theorem Plain.later {lib next : Library} (after : lib.Later next) (c : ClassId) (plain : lib.Plain c) : next.Plain c :=
  plain.carry (lib.classOf c).optimization (plain.known.trans_le after.moreClasses)
    (after.classOf c plain.known) (IsMember.later after) (fun _ => Shallow.grow after)
    plain.optimization

theorem Plain.withOptimization {lib : Library} (c : ClassId) (plain : lib.Plain c)
    (m : ModificationId) (shallow : lib.Shallow lib.size (.modification m)) :
    (lib.modifyClass c fun d => { d with optimization := some m }).Plain c := by
  refine plain.carry (some m) ?_ (classOf_modifyClass_self lib c _ plain.known) ?_ ?_ ?_
  · simpa using plain.known
  · exact fun _ _ _ old => { old with }
  · intro n shallow
    simp only [Library.size, classes_size_modifyClass]
    refine Shallow.of_tables ?_ ?_ _ _ shallow
    all_goals exact fun _ known => ⟨known, rfl⟩
  · rintro _ ⟨⟩
    exact shallow

end Modelica.Library
