import Modelica.Proofs.Flow.Connection

set_option autoImplicit false

namespace Modelica

open Build

theorem literalSubscripts_of_allLiteral (r : ComponentRef) (literal : allLiteral r.subscripts = true) :
    literalSubscripts r = .ok (literals r.subscripts) := by
  unfold literalSubscripts literals
  unfold allLiteral at literal
  generalize (r.subscripts.filterMap id).flatten = es at literal ⊢
  induction es with
  | nil => rfl
  | cons e es ih =>
    rw [List.all_cons, Bool.and_eq_true] at literal
    obtain ⟨here, later⟩ := literal
    cases e with
    | literal l =>
      rw [List.mapM_cons, ih later]
      rfl
    | _ => simp [Expr.literal?] at here

theorem allLiteral_append (first second : List (Option (List Expr)))
    (left : allLiteral first = true) (right : allLiteral second = true) : allLiteral (first ++ second) = true := by
  unfold allLiteral at *
  rw [List.filterMap_append, List.flatten_append, List.all_append, left, right]
  rfl

theorem memberFlow_fits (connector : ComponentRef) (inner : Bool) (x : ConnectorVariable)
    (left : allLiteral connector.subscripts = true) (right : allLiteral x.subscripts = true) :
    (memberFlow connector inner x).Fits (memberRef connector x) :=
  ⟨rfl, rfl, literalSubscripts_of_allLiteral (memberRef connector x) (allLiteral_append _ _ left right)⟩

def metNames (edges : List FlowEdge) : List String :=
  edges.flatMap fun e => [e.1.name, e.2.name]

theorem mem_metNames (edges : List FlowEdge) (n : String) : n ∈ metNames edges ↔ ∃ x, IsEnd edges x ∧ x.name = n := by
  simp only [metNames, List.mem_flatMap, List.mem_cons, List.not_mem_nil, or_false, IsEnd]
  constructor
  · rintro ⟨e, member, rfl | rfl⟩
    · exact ⟨e.1, ⟨e, member, .inl rfl⟩, rfl⟩
    · exact ⟨e.2, ⟨e, member, .inr rfl⟩, rfl⟩
  · rintro ⟨x, ⟨e, member, rfl | rfl⟩, rfl⟩
    · exact ⟨e, member, .inl rfl⟩
    · exact ⟨e, member, .inr rfl⟩

structure Connecting.Reached (start : OrderedMap String SymbolId) (work : Connecting)
    (equations : List Equation) (edges : List FlowEdge) : Prop where
  equations : work.equations = equations
  flows : work.flows.Correct FlowVariable.Fits edges
  idle : work.idle.entries = start.entries.filter fun e => decide (e.1 ∉ metNames edges)

theorem Connecting.reached_start (start : OrderedMap String SymbolId) :
    Connecting.Reached start { idle := start } [] [] where
  equations := rfl
  flows := FlowGroups.correct_empty
  idle := by simp [metNames]

def Symbol.connectorVariable? (s : Symbol) : Option ConnectorVariable :=
  match s.type with
  | .named r => some ⟨s.name, s.prefixes, r.subscripts⟩
  | _ => none

theorem ConnectorVariable.isFlow_of_isPotential (x : ConnectorVariable)
    (potential : x.isPotential = true) : x.isFlow = false := by
  unfold isPotential at potential
  unfold isFlow
  rw [decide_eq_false_iff_not]
  intro flow
  simp [flow] at potential

theorem connectorVariable_eq (s : Symbol) (x : ConnectorVariable) (isVariable : s.connectorVariable? = some x) :
    ∃ r, s.type = .named r ∧ x = ⟨s.name, s.prefixes, r.subscripts⟩ := by
  unfold Symbol.connectorVariable? at isVariable
  split at isVariable
  · next r type => exact ⟨r, type, (Option.some_inj.1 isVariable).symm⟩
  · contradiction

namespace Connection

def equationsFor (c : Connection) (x : ConnectorVariable) : List Equation :=
  if x.isPotential then [c.equality x] else []

def edgesFor (c : Connection) (x : ConnectorVariable) : List FlowEdge :=
  if x.isFlow then [c.edge x] else []

end Connection

section Step

variable {start : OrderedMap String SymbolId} {work : Connecting} {equations : List Equation}
  {edges : List FlowEdge}

theorem Connecting.Reached.equal (reached : work.Reached start equations edges) (e : Equation) :
    Connecting.Reached start { work with equations := work.equations ++ [e] } (equations ++ [e])
      edges :=
  ⟨by rw [reached.equations], reached.flows, reached.idle⟩

theorem Connecting.Reached.join (reached : work.Reached start equations edges)
    (l : FlowVariable) (lRef : ComponentRef) (r : FlowVariable) (rRef : ComponentRef)
    (left : l.Fits lRef) (right : r.Fits rRef) :
    Connecting.Reached start { work with
        flows := work.flows.connect l lRef r rRef
        idle := (work.idle.erase lRef.name).erase rRef.name }
      equations (edges ++ [(l, r)]) where
  equations := reached.equations
  flows := FlowGroups.connect_correct reached.flows l lRef r rRef left right
  idle := by
    simp only [OrderedMap.erase, reached.idle, List.filter_filter]
    refine List.filter_congr ?_
    intro e _
    have more : e.1 ∈ metNames (edges ++ [(l, r)]) ↔ e.1 ∈ metNames edges ∨ e.1 = lRef.name ∨ e.1 = rRef.name := by
      simp [metNames, left.2.1, right.2.1]
    rw [Bool.eq_iff_iff]
    simp only [Bool.and_eq_true, decide_eq_true_eq, more]
    tauto

section

variable (c : Connection) (s : Symbol) (x : ConnectorVariable)
  (isVariable : s.connectorVariable? = some x)
include c s x isVariable

theorem connectVariable_potential (potential : x.isPotential = true) (work : Connecting) :
    connectVariable c.left c.right (some c.sides) s work =
      .ok { work with equations := work.equations ++ [c.equality x] } := by
  obtain ⟨r, type, rfl⟩ := connectorVariable_eq s x isVariable
  unfold ConnectorVariable.isPotential at potential
  cases prefixes : s.prefixes with
  | nil =>
    simp only [connectVariable, type, pure_bind, prefixes]
    rfl
  | cons first others =>
    simp only [prefixes] at potential
    simp only [connectVariable, type, pure_bind, prefixes, potential, if_true]
    rfl

theorem connectVariable_flow (flow : x.isFlow = true) (left : allLiteral c.left.subscripts = true)
    (right : allLiteral c.right.subscripts = true) (literal : allLiteral x.subscripts = true)
    (work : Connecting) :
    connectVariable c.left c.right (some c.sides) s work = .ok { work with
        flows := work.flows.connect (c.edge x).1 (memberRef c.left x) (c.edge x).2 (memberRef c.right x)
        idle := (work.idle.erase (memberRef c.left x).name).erase (memberRef c.right x).name } := by
  obtain ⟨r, type, rfl⟩ := connectorVariable_eq s x isVariable
  have prefixes : s.prefixes = ["flow"] := by simpa [ConnectorVariable.isFlow] using flow
  have first := literalSubscripts_of_allLiteral
    (memberRef c.left ⟨s.name, s.prefixes, r.subscripts⟩) (allLiteral_append _ _ left literal)
  have second := literalSubscripts_of_allLiteral
    (memberRef c.right ⟨s.name, s.prefixes, r.subscripts⟩) (allLiteral_append _ _ right literal)
  simp only [memberRef] at first second
  have noDirection : (decide ("flow" = "input") || decide ("flow" = "output")) = false := by decide
  simp only [connectVariable, type, pure_bind, prefixes, noDirection, Bool.false_eq_true, if_false,
    if_true, first, second]
  rfl

theorem connectVariable_fixed (isFixed : x.isFixed = true) (work : Connecting) :
    connectVariable c.left c.right (some c.sides) s work = .ok work := by
  obtain ⟨r, type, rfl⟩ := connectorVariable_eq s x isVariable
  unfold ConnectorVariable.isFixed at isFixed
  cases prefixes : s.prefixes with
  | nil => simp [prefixes] at isFixed
  | cons first others =>
    simp only [prefixes] at isFixed
    have other : (decide (first = "input") || decide (first = "output")) = false ∧ first ≠ "flow" := by
      simp only [Bool.or_eq_true, decide_eq_true_eq] at isFixed
      obtain rfl | rfl := isFixed <;> decide
    have noFlow : first :: others ≠ ["flow"] := by simp [other.2]
    simp only [connectVariable, type, pure_bind, prefixes, other.1, Bool.false_eq_true, if_false,
      noFlow, isFixed, if_true]
    rfl

end

theorem connectVariable_reached (reached : work.Reached start equations edges) (c : Connection)
    (left : allLiteral c.left.subscripts = true) (right : allLiteral c.right.subscripts = true)
    (s : Symbol) (x : ConnectorVariable) (isVariable : s.connectorVariable? = some x)
    (literal : allLiteral x.subscripts = true) (supported : x.supported = true) :
    ∃ next, connectVariable c.left c.right (some c.sides) s work = .ok next ∧
      next.Reached start (equations ++ c.equationsFor x) (edges ++ c.edgesFor x) := by
  unfold Connection.equationsFor Connection.edgesFor
  by_cases potential : x.isPotential = true
  · have noFlow := x.isFlow_of_isPotential potential
    refine ⟨_, connectVariable_potential c s x isVariable potential work, ?_⟩
    simpa [potential, noFlow] using reached.equal (c.equality x)
  · by_cases flow : x.isFlow = true
    · refine ⟨_, connectVariable_flow c s x isVariable flow left right literal work, ?_⟩
      simpa [potential, flow, Connection.edge] using reached.join _ _ _ _
        (memberFlow_fits c.left c.sides.leftInner x left literal)
        (memberFlow_fits c.right c.sides.rightInner x right literal)
    · have isFixed : x.isFixed = true := by
        simpa [ConnectorVariable.supported, potential, flow] using supported
      refine ⟨_, connectVariable_fixed c s x isVariable isFixed work, ?_⟩
      simpa [potential, flow] using reached

end Step

end Modelica
