import Modelica.Proofs.Flow.Expansion
import Modelica.Proofs.Library.PlainFlat

set_option autoImplicit false

namespace Modelica

namespace Library

def nameOf (lib : Library) (s : SymbolId) : String := (lib.symbolOf s).name

def connectorVariables (lib : Library) (c : ClassId) : List ConnectorVariable :=
  (lib.classOf c).symbols.values.filterMap fun s => (lib.symbolOf s).connectorVariable?

def connectorAt? (lib : Library) (node : ClassId) (r : ComponentRef) : Option ClassId := do
  let s ← (lib.classOf node).symbols.find? r.name
  (lib.symbolOf s).connectorType

def connection? (lib : Library) (node : ClassId) : Equation → Option Connection
  | .connect left right _ (some sides) =>
    (lib.connectorAt? node left).map fun c => ⟨left, right, sides, lib.connectorVariables c⟩
  | _ => none

def connections (lib : Library) (node : ClassId) : List Connection :=
  (lib.classOf node).equations.filterMap (lib.connection? node)

-- What stands in the place of an equation: for a connection the equalities of the potentials, any other stays.
def expansion (lib : Library) (node : ClassId) (e : Equation) : List Equation :=
  match lib.connection? node e with
  | some c => c.equalities
  | none => [e]

def flowNames (lib : Library) (node : ClassId) : List String :=
  ((lib.classOf node).symbols.values.filter fun s =>
    (lib.symbolOf s).prefixes.contains "flow").map fun s => (lib.symbolOf s).name

-- A connector class as flattening leaves it, with variables that connections can join.
structure IsConnector (lib : Library) (c : ClassId) : Prop where
  plain : lib.Plain c
  definition : (lib.classOf c).role = .definition
  type : (lib.classOf c).type ≠ "__builtin"
  literal : ∀ x ∈ lib.connectorVariables c, allLiteral x.subscripts = true
  supported : ∀ x ∈ lib.connectorVariables c, x.supported = true

structure Joined (lib : Library) (node : ClassId) (left right : ComponentRef)
    (sides : Option ConnectionSides) : Prop where
  single : left.child = none ∧ right.child = none
  literal : allLiteral left.subscripts = true ∧ allLiteral right.subscripts = true
  marked : sides.isSome = true
  ends : ∃ c d, lib.connectorAt? node left = some c ∧ lib.connectorAt? node right = some d ∧
    lib.IsConnector c ∧ lib.IsConnector d ∧ lib.connectorVariables c = lib.connectorVariables d

-- A flat class whose connections each join two connectors of one connector class.
structure Connectable (lib : Library) (node : ClassId) : Prop where
  known : node.index < lib.classes.size
  components : ∀ s ∈ (lib.classOf node).symbols.values, s.index < lib.symbols.size
  joined : ∀ left right comment sides,
    .connect left right comment sides ∈ (lib.classOf node).equations →
      lib.Joined node left right sides

end Library

namespace Connection

theorem map_filter_eq_flatMap {α β : Type} (p : α → Bool) (f : α → β) (xs : List α) :
    (xs.filter p).map f = xs.flatMap fun x => if p x then [f x] else [] := by
  induction xs with
  | nil => rfl
  | cons x xs ih =>
    rw [List.flatMap_cons, ← ih, List.filter_cons]
    split <;> simp_all

theorem equalities_eq_flatMap (c : Connection) : c.equalities = c.members.flatMap c.equationsFor :=
  map_filter_eq_flatMap ..

theorem edges_eq_flatMap (c : Connection) : c.edges = c.members.flatMap c.edgesFor :=
  map_filter_eq_flatMap ..

end Connection

def Equation.isConnection : Equation → Bool
  | .connect _ _ _ _ => true
  | _ => false

namespace Build

open Library

section Variables

variable {start : OrderedMap String SymbolId}

theorem connectVariables_reached (c : Connection) (wellFormed : c.WellFormed) (lib : Library) (symbols : List SymbolId)
    (members : c.members = symbols.filterMap fun s => (lib.symbolOf s).connectorVariable?)
    (all : ∀ s ∈ symbols, ∃ x, (lib.symbolOf s).connectorVariable? = some x)
    (work : Connecting) (equations : List Equation) (edges : List FlowEdge)
    (reached : work.Reached start equations edges) :
    Returns (forIn symbols work fun s work => do
      let work ← liftExcept (connectVariable c.left c.right (some c.sides) (← symbolOf s) work)
      pure (ForInStep.yield work)) lib fun next after => after = lib ∧
        next.Reached start (equations ++ c.equalities) (edges ++ c.edges) := by
  rw [c.equalities_eq_flatMap, c.edges_eq_flatMap, members]
  refine ensures_forIn _ _ _ (fun done work now => now = lib ∧ work.Reached start
      (equations ++ (done.filterMap fun s => (lib.symbolOf s).connectorVariable?).flatMap c.equationsFor)
      (edges ++ (done.filterMap fun s => (lib.symbolOf s).connectorVariable?).flatMap c.edgesFor))
    ?_ ?_ ?_
  · exact ⟨rfl, by simpa using reached⟩
  · rintro done s rest work now split ⟨rfl, reached⟩
    obtain ⟨x, isVariable⟩ := all s (by rw [split]; simp)
    have member : x ∈ c.members := by
      rw [members, List.mem_filterMap]
      exact ⟨s, by rw [split]; simp, isVariable⟩
    obtain ⟨next, run, more⟩ := connectVariable_reached reached c wellFormed.left wellFormed.right
      _ x isVariable (wellFormed.literal x member) (wellFormed.supported x member)
    simp only [ensures_bind, ensures_symbolOf, run, ensures_liftExcept_ok, ensures_pure]
    refine ⟨trivial, ?_⟩
    simpa [List.filterMap_append, isVariable, List.append_assoc] using more
  · exact fun _ _ => id

variable {lib next now : Library} {c flat : ClassId}

theorem connectorVariable?_of_copies {old new : List (String × SymbolId)} (copies : AreCopies lib old next new) :
    new.map (fun e => (next.symbolOf e.2).connectorVariable?) =
      old.map fun e => (lib.symbolOf e.2).connectorVariable? := by
  unfold AreCopies at copies
  induction copies with
  | nil => rfl
  | cons first _ ih =>
    obtain ⟨_, _, name, type, prefixes⟩ := first
    rw [List.map_cons, List.map_cons, ih, Symbol.connectorVariable?, name, type, prefixes]
    rfl

section

variable (copies : AreCopies lib (lib.classOf c).symbols.entries next (next.classOf flat).symbols.entries)
include copies

theorem connectorVariables_of_copies : next.connectorVariables flat = lib.connectorVariables c := by
  have same := congrArg (List.filterMap id) (connectorVariable?_of_copies copies)
  simpa [connectorVariables, OrderedMap.values, List.filterMap_map, Function.comp_def] using same

theorem isVariable_of_copies (plain : lib.Plain c) :
    ∀ s ∈ (next.classOf flat).symbols.values, ∃ x, (next.symbolOf s).connectorVariable? = some x := by
  refine List.forall_mem_map.2 fun e' member => ?_
  have listed := List.mem_map_of_mem (f := fun e => (next.symbolOf e.2).connectorVariable?) member
  rw [connectorVariable?_of_copies copies] at listed
  obtain ⟨e, old, same⟩ := List.mem_map.1 listed
  obtain ⟨r, type, _⟩ := (plain.members e old).type
  exact ⟨_, by rw [← same, Symbol.connectorVariable?, type]⟩

end

theorem connectorVariables_later (later : lib.Later now) (plain : lib.Plain c) :
    now.connectorVariables c = lib.connectorVariables c := by
  unfold connectorVariables
  rw [later.classOf c plain.known]
  refine List.filterMap_congr fun s member => ?_
  obtain ⟨e, inside, rfl⟩ := List.mem_map.1 member
  exact (later.symbolOf e.2 (plain.members e inside).known).apply Symbol.connectorVariable? fun _ => rfl

theorem connectEquation_reached {node : ClassId} (connectable : lib.Connectable node)
    (later : lib.Later now) (fuel : Nat) (e : Equation)
    (member : e ∈ (lib.classOf node).equations) (work : Connecting) (equations : List Equation)
    (edges : List FlowEdge) (reached : work.Reached start equations edges) :
    (connectEquation (fuel + 2) node work e).Returns now fun next after =>
      lib.Later after ∧ next.Reached start (equations ++ lib.expansion node e)
        (edges ++ allEdges (lib.connection? node e).toList) := by
  cases e with
  | connect left right comment sides =>
    obtain ⟨⟨single, other⟩, ⟨literalLeft, literalRight⟩, marked, c, d, foundLeft, foundRight,
      isLeft, _, _⟩ := connectable.joined left right comment sides member
    obtain ⟨sides, rfl⟩ := Option.isSome_iff_exists.1 marked
    obtain ⟨l, entryLeft, typeLeft⟩ := Option.bind_eq_some_iff.1 foundLeft
    obtain ⟨r, entryRight, typeRight⟩ := Option.bind_eq_some_iff.1 foundRight
    have kept : ∀ s n k, (lib.classOf node).symbols.find? n = some s →
        (lib.symbolOf s).connectorType = some k → (now.symbolOf s).connectorType = some k := by
      intro s n k entry type
      have known := connectable.components s (List.mem_map_of_mem (OrderedMap.mem_entries_of_find? _ n s entry))
      rw [(later.symbolOf s known).apply Symbol.connectorType fun _ => rfl, type]
    simp only [Returns, connectEquation, single, other, Option.isSome_none, Bool.false_eq_true,
      if_false, ensures_bind, symbolEntry, ensures_classOf, later.classOf node connectable.known,
      entryLeft, entryRight, ensures_pure, connectorOf, ensures_tryCatch, connectorClass,
      ensures_symbolOf, kept l _ c entryLeft typeLeft, kept r _ d entryRight typeRight]
    refine Ensures.mono (flattenClass_of_plain (isLeft.plain.later later) ?_ ?_ fuel) ?_ fun _ _ => id
    · rw [later.classOf c isLeft.plain.known, isLeft.definition]
    · rw [later.classOf c isLeft.plain.known]
      exact isLeft.type
    rintro flat next ⟨after, copies⟩
    have sameVariables : next.connectorVariables flat = lib.connectorVariables c :=
      (connectorVariables_of_copies copies).trans (connectorVariables_later later isLeft.plain)
    have isConnection : lib.connection? node (.connect left right comment (some sides)) =
        some ⟨left, right, sides, lib.connectorVariables c⟩ := by
      simp only [connection?, foundLeft, Option.map_some]
    rw [expansion, isConnection]
    have wellFormed : (Connection.mk left right sides (lib.connectorVariables c)).WellFormed :=
      ⟨literalLeft, literalRight, isLeft.literal, isLeft.supported⟩
    have run := connectVariables_reached _ wellFormed next (next.classOf flat).symbols.values
      sameVariables.symm ?_ work equations edges reached
    · refine Ensures.imp run ?_
      rintro work _ ⟨rfl, reached⟩
      refine ⟨later.trans after, ?_⟩
      simpa [allEdges] using reached
    · exact isVariable_of_copies copies (isLeft.plain.later later)
  | _ =>
    simp only [Returns, connectEquation, ensures_pure, expansion, connection?]
    exact ⟨later, by simpa [allEdges] using reached.equal _⟩

end Variables

structure IsStart (lib : Library) (node : ClassId) (start : OrderedMap String SymbolId) :
    Prop where
  names : ∀ n, n ∈ start.keys ↔ n ∈ lib.flowNames node
  symbols : ∀ e ∈ start.entries, e.2.index < lib.symbols.size ∧ (lib.symbolOf e.2).name = e.1

structure Expanded (lib : Library) (node : ClassId) (next : Library)
    (start : OrderedMap String SymbolId) (work : Connecting) : Prop where
  isStart : IsStart lib node start
  reached : work.Reached start ((lib.classOf node).equations.flatMap (lib.expansion node))
    (allEdges (lib.connections node))
  names : ∀ s, s.index < lib.symbols.size → (next.symbolOf s).name = (lib.symbolOf s).name
  equations : (next.classOf node).equations = work.equations ++
    work.flows.distinct.map FlowGroup.balance ++
    work.idle.values.map fun s => .simple (.component s) (.integer 0) ""

variable {lib : Library} {node : ClassId}

theorem expandConnectors_expanded (connectable : lib.Connectable node) (fuel : Nat) :
    (expandConnectors (fuel + 2) node).Returns lib fun _ next => ∃ start work, Expanded lib node next start work := by
  simp only [Returns, expandConnectors, ensures_bind, ensures_classOf]
  refine ensures_forIn _ _ _ (fun done start now => now = lib ∧ (∀ n, n ∈ start.keys ↔ n ∈ (done.filter fun s =>
      (lib.symbolOf s).prefixes.contains "flow").map fun s => (lib.symbolOf s).name) ∧
    ∀ e ∈ start.entries, e.2.index < lib.symbols.size ∧ (lib.symbolOf e.2).name = e.1) ?_ ?_ ?_
  · exact ⟨rfl, fun n => by simp [OrderedMap.keys], fun _ member => absurd member List.not_mem_nil⟩
  · rintro done s rest start now all ⟨rfl, names, symbols⟩
    simp only [ensures_bind, ensures_symbolOf]
    have known := connectable.components s (by rw [all]; simp)
    split
    · next flow =>
      rw [ensures_pure]
      refine ⟨rfl, ?_, ?_⟩
      · intro n
        rw [OrderedMap.mem_keys_insert, names, List.filter_append, List.map_append, List.mem_append]
        simp only [List.filter_cons, flow, if_true, List.filter_nil, List.map_cons, List.map_nil, List.mem_singleton]
        exact or_comm
      · intro e member
        obtain rfl | old := OrderedMap.mem_entries_insert _ _ _ _ member
        · exact ⟨known, rfl⟩
        · exact symbols e old
    · next idle =>
      rw [ensures_pure]
      refine ⟨rfl, ?_, symbols⟩
      intro n
      rw [names, List.filter_append]
      simp only [List.filter_cons, idle, List.filter_nil, List.append_nil, if_false, Bool.false_eq_true]
  · rintro start now ⟨rfl, names, symbols⟩
    refine ensures_forIn _ _ _ (fun done work mid => now.Later mid ∧
      work.Reached start (done.flatMap (now.expansion node))
        (allEdges (done.filterMap (now.connection? node)))) ?_ ?_ ?_
    · exact ⟨.refl now, Connecting.reached_start start⟩
    · rintro done e rest work mid all ⟨later, reached⟩
      simp only [ensures_bind, ensures_pure]
      refine Ensures.mono (connectEquation_reached connectable later fuel e (by rw [all]; simp)
        work _ _ reached) ?_ fun _ _ => id
      rintro next after ⟨later, reached⟩
      refine ⟨later, ?_⟩
      have last : [e].filterMap (now.connection? node) = (now.connection? node e).toList := by
        cases found : now.connection? node e <;> simp [found]
      rw [List.flatMap_append, List.flatMap_singleton, List.filterMap_append, last, allEdges, List.flatMap_append]
      exact reached
    · rintro work mid ⟨later, reached⟩
      simp only [ensures_get, ensures_updateClass]
      refine ⟨start, work, ⟨names, symbols⟩, reached, ?_, ?_⟩
      · exact fun s known => (later.symbolOf s known).apply Symbol.name fun _ => rfl
      · rw [classOf_modifyClass_self mid node _ (connectable.known.trans_le later.moreClasses)]
        rfl

section Meaning

variable {G : Type} [AddCommGroup G] (v : Valuation G)

theorem equalities_hold_iff (nameOf : SymbolId → String) (c : Connection) (wellFormed : c.WellFormed) :
    (∀ e ∈ c.equalities, e.Holds nameOf v) ↔ ∀ x ∈ c.members, x.isPotential = true →
        memberValue v c.left x = memberValue v c.right x := by
  have equality : ∀ x ∈ c.members, (c.equality x).Holds nameOf v ↔
      memberValue v c.left x = memberValue v c.right x := by
    intro x member
    have literal := wellFormed.literal x member
    exact holds_simple_iff nameOf v _ _ _ _ _
      (value?_of_fits nameOf v _ _ (memberFlow_fits c.left true x wellFormed.left literal))
      (value?_of_fits nameOf v _ _ (memberFlow_fits c.right true x wellFormed.right literal))
  unfold Connection.equalities
  constructor
  · intro holds x member potential
    exact (equality x member).1 (holds _ (List.mem_map_of_mem (List.mem_filter.2 ⟨member, potential⟩)))
  · intro equal e member
    obtain ⟨x, inside, rfl⟩ := List.mem_map.1 member
    obtain ⟨inside, potential⟩ := List.mem_filter.1 inside
    exact (equality x inside).2 (equal x inside potential)

theorem zeros_hold_iff {lib next : Library} {node : ClassId} {start : OrderedMap String SymbolId}
    {work : Connecting} (expanded : Expanded lib node next start work) :
    (∀ e ∈ work.idle.values.map (fun s => Equation.simple (.component s) (.integer 0) ""), e.Holds next.nameOf v) ↔
      ∀ n ∈ lib.flowNames node, (∀ x, IsEnd (allEdges (lib.connections node)) x → x.name ≠ n) → v n [] = 0 := by
  have zero : ∀ e ∈ start.entries,
      (Equation.simple (.component e.2) (.integer 0) "").Holds next.nameOf v ↔ v e.1 [] = 0 := by
    intro e member
    obtain ⟨known, name⟩ := expanded.isStart.symbols e member
    rw [← name, ← expanded.names e.2 known]
    exact holds_simple_iff next.nameOf v _ _ _ _ _ (by simp [Expr.value?, nameOf]) (value?_zero next.nameOf v)
  have idle : ∀ e, e ∈ work.idle.entries ↔ e ∈ start.entries ∧
      ∀ x, IsEnd (allEdges (lib.connections node)) x → x.name ≠ e.1 := by
    intro e
    rw [expanded.reached.idle, List.mem_filter, decide_eq_true_eq, mem_metNames]
    simp only [not_exists, not_and, ne_eq]
  constructor
  · intro holds n flow unmet
    obtain ⟨e, member, rfl⟩ := List.mem_map.1 ((expanded.isStart.names n).2 flow)
    refine (zero e member).1 (holds _ (List.mem_map.2 ⟨e.2, ?_, rfl⟩))
    exact List.mem_map_of_mem ((idle e).2 ⟨member, unmet⟩)
  · intro zeros e member
    obtain ⟨s, inside, rfl⟩ := List.mem_map.1 member
    obtain ⟨entry, there, rfl⟩ := List.mem_map.1 inside
    obtain ⟨inside, unmet⟩ := (idle entry).1 there
    exact (zero entry inside).2 (zeros entry.1 ((expanded.isStart.names entry.1).1 (List.mem_map_of_mem inside)) unmet)

end Meaning

theorem wellFormed_of_connection (connectable : lib.Connectable node) (e : Equation)
    (member : e ∈ (lib.classOf node).equations) (c : Connection)
    (isConnection : lib.connection? node e = some c) : c.WellFormed := by
  unfold connection? at isConnection
  split at isConnection
  · next left right comment sides =>
    obtain ⟨k, found, rfl⟩ := Option.map_eq_some_iff.1 isConnection
    have joined := connectable.joined left right comment (some sides) member
    obtain ⟨k', _, found', _, isConnector, _⟩ := joined.ends
    obtain rfl : k' = k := Option.some_inj.1 (found'.symm.trans found)
    exact ⟨joined.literal.1, joined.literal.2, isConnector.literal, isConnector.supported⟩
  · contradiction

theorem mem_expansions_iff (connectable : lib.Connectable node) (e : Equation) :
    e ∈ ((lib.classOf node).equations.filter (·.isConnection)).flatMap (lib.expansion node) ↔
      ∃ c ∈ lib.connections node, e ∈ c.equalities := by
  simp only [List.mem_flatMap, List.mem_filter, connections, List.mem_filterMap]
  constructor
  · rintro ⟨clause, ⟨member, isConnection⟩, inside⟩
    cases clause with
    | connect left right comment sides =>
      obtain ⟨_, _, marked, k, _, found, _⟩ := connectable.joined left right comment sides member
      obtain ⟨sides, rfl⟩ := Option.isSome_iff_exists.1 marked
      have some : lib.connection? node (.connect left right comment (some sides)) =
          some ⟨left, right, sides, lib.connectorVariables k⟩ := by
        simp only [connection?, found, Option.map_some]
      rw [expansion, some] at inside
      exact ⟨_, ⟨_, member, some⟩, inside⟩
    | _ => simp [Equation.isConnection] at isConnection
  · rintro ⟨c, ⟨clause, member, isConnection⟩, inside⟩
    refine ⟨clause, ⟨member, ?_⟩, ?_⟩
    · unfold connection? at isConnection
      split at isConnection
      · rfl
      · contradiction
    · rw [expansion, isConnection]
      exact inside

theorem expandConnectors_means_connected (lib : Library) (node : ClassId)
    (connectable : lib.Connectable node) (fuel : Nat) :
    ∃ next added, expandConnectors (fuel + 2) node lib = .ok () next ∧
      (next.classOf node).equations =
        (lib.classOf node).equations.flatMap (lib.expansion node) ++ added ∧
      ∀ (G : Type) [AddCommGroup G] (v : Valuation G) (cs : List Connection),
        SameConnections (lib.connections node) cs →
          ((∀ e ∈ ((lib.classOf node).equations.filter (·.isConnection)).flatMap
              (lib.expansion node) ++ added, e.Holds next.nameOf v) ↔
            Connected v cs (lib.flowNames node)) := by
  obtain ⟨_, next, run, start, work, expanded⟩ :=
    (expandConnectors_expanded connectable fuel).exists
  refine ⟨next, work.flows.distinct.map FlowGroup.balance ++
    work.idle.values.map fun s => .simple (.component s) (.integer 0) "", run, ?_, ?_⟩
  · rw [expanded.equations, expanded.reached.equations, List.append_assoc]
  intro G _ v cs same
  have equal : (∀ e ∈ ((lib.classOf node).equations.filter (·.isConnection)).flatMap
      (lib.expansion node), e.Holds next.nameOf v) ↔
      ∀ c ∈ lib.connections node, ∀ x ∈ c.members, x.isPotential = true →
        memberValue v c.left x = memberValue v c.right x := by
    have each : ∀ c ∈ lib.connections node, (∀ e ∈ c.equalities, e.Holds next.nameOf v) ↔
        ∀ x ∈ c.members, x.isPotential = true →
          memberValue v c.left x = memberValue v c.right x := by
      intro c member
      obtain ⟨clause, inside, isConnection⟩ := List.mem_filterMap.1 member
      exact equalities_hold_iff v next.nameOf c
        (wellFormed_of_connection connectable clause inside c isConnection)
    constructor
    · intro holds c member
      refine (each c member).1 fun e inside => holds e ?_
      exact (mem_expansions_iff connectable e).2 ⟨c, member, inside⟩
    · intro equal e inside
      obtain ⟨c, member, inside⟩ := (mem_expansions_iff connectable e).1 inside
      exact (each c member).2 (equal c member) e inside
  have balanced : (∀ e ∈ work.flows.distinct.map FlowGroup.balance, e.Holds next.nameOf v) ↔
      ∀ x, IsEnd (allEdges (lib.connections node)) x →
        ∑ y ∈ component (allEdges (lib.connections node)) x, y.net v = 0 := by
    rw [List.forall_mem_map]
    exact balances_hold_iff next.nameOf v expanded.reached.flows
  simp only [List.forall_mem_append, equal, balanced, zeros_hold_iff v expanded]
  constructor
  · rintro ⟨equal, balanced, idle⟩
    exact same.connected ⟨equal, balanced, idle⟩
  · intro connected
    have back := same.symm.connected connected
    exact ⟨back.equal, back.balanced, back.idle⟩

-- Two pins that are connected twice, once in each direction, beside a pin that is not.
def circuit : Library :=
  let real : SymbolType := .named (.simple "Real")
  let pin : SymbolType := .connector (some "Pin")
  { classes := #[
      { name := some "Pin"
        type := "connector"
        symbols := ⟨[("v", ⟨0⟩), ("i", ⟨1⟩)]⟩
        origin := ⟨0⟩ },
      { name := some "Circuit"
        symbols := ⟨[("p", ⟨2⟩), ("q", ⟨3⟩), ("p.i", ⟨4⟩), ("q.i", ⟨5⟩), ("r.i", ⟨6⟩)]⟩
        equations := [
          .connect (.simple "p") (.simple "q") "" (some ⟨true, false⟩),
          .simple (.ref (.simple "p.v")) (.ref (.simple "r.v")) "",
          .connect (.simple "q") (.simple "p") "" (some ⟨false, true⟩)]
        origin := ⟨1⟩ }]
    symbols := #[
      { name := "v", type := real },
      { name := "i", type := real, prefixes := ["flow"] },
      { name := "p", type := pin, connectorType := some ⟨0⟩ },
      { name := "q", type := pin, connectorType := some ⟨0⟩ },
      { name := "p.i", type := real, prefixes := ["flow"] },
      { name := "q.i", type := real, prefixes := ["flow"] },
      { name := "r.i", type := real, prefixes := ["flow"] }] }

theorem circuit_members : circuit.connectorVariables ⟨0⟩ = [⟨"v", [], [none]⟩, ⟨"i", ["flow"], [none]⟩] := rfl

theorem isMember_of_real (lib : Library) (keys : List String) (name : String)
    (prefixes : List String) (s : SymbolId) (known : s.In lib)
    (component : lib.symbolOf s =
      { name := name, type := .named (.simple "Real"), prefixes := prefixes }) :
    lib.IsMember keys name s := by
  refine ⟨known, ?_, ⟨.simple "Real", ?_, by decide, by decide, .inl ⟨rfl, rfl⟩⟩, ?_, ?_, ?_⟩
  · rw [component]
  · rw [component]
  · rw [component]
    simp [Symbol.exprs, Expr.absent, Expr.bare]
  · intro m has
    rw [component] at has
    contradiction
  · rw [component]

theorem circuit_connector : circuit.IsConnector ⟨0⟩ where
  plain := by
    constructor
    case known => decide
    case unique => decide
    case members =>
      rintro e (_ | ⟨_, _ | ⟨_, none⟩⟩)
      · exact isMember_of_real circuit _ "v" [] ⟨0⟩ (by decide) rfl
      · exact isMember_of_real circuit _ "i" ["flow"] ⟨1⟩ (by decide) rfl
      · contradiction
    case annotated => exact fun _ => nofun
    case optimization => exact fun _ => nofun
    all_goals rfl
  definition := rfl
  type := by decide
  literal := by
    rw [circuit_members]
    simp [allLiteral]
  supported := by
    rw [circuit_members]
    simp [ConnectorVariable.supported, ConnectorVariable.isPotential, ConnectorVariable.isFlow]

theorem circuit_connectable : circuit.Connectable ⟨1⟩ where
  known := by decide
  components := by decide
  joined := by
    have joined : ∀ n m sides, (n = "p" ∨ n = "q") → (m = "p" ∨ m = "q") →
        circuit.Joined ⟨1⟩ (.simple n) (.simple m) (some sides) := by
      intro n m sides left right
      refine ⟨⟨rfl, rfl⟩, ⟨rfl, rfl⟩, rfl, ⟨0⟩, ⟨0⟩, ?_, ?_, circuit_connector, circuit_connector, rfl⟩
      · obtain rfl | rfl := left <;> rfl
      · obtain rfl | rfl := right <;> rfl
    rintro left right comment sides (_ | ⟨_, _ | ⟨_, _ | ⟨_, none⟩⟩⟩)
    · exact joined "p" "q" _ (.inl rfl) (.inr rfl)
    · exact joined "q" "p" _ (.inr rfl) (.inl rfl)
    · contradiction

theorem circuit_means_connected :
    circuit.Connectable ⟨1⟩ ∧
      ∃ next added, expandConnectors 2 ⟨1⟩ circuit = .ok () next ∧
        (next.classOf ⟨1⟩).equations =
          (circuit.classOf ⟨1⟩).equations.flatMap (circuit.expansion ⟨1⟩) ++ added ∧
        ∀ (G : Type) [AddCommGroup G] (v : Valuation G) (cs : List Connection),
          SameConnections (circuit.connections ⟨1⟩) cs →
            ((∀ e ∈ ((circuit.classOf ⟨1⟩).equations.filter (·.isConnection)).flatMap
                (circuit.expansion ⟨1⟩) ++ added, e.Holds next.nameOf v) ↔
              Connected v cs (circuit.flowNames ⟨1⟩)) :=
  ⟨circuit_connectable, expandConnectors_means_connected circuit ⟨1⟩ circuit_connectable 0⟩

end Build

end Modelica
