import Modelica.Proofs.Expr.Literal
import Modelica.Proofs.Flow.Balance

set_option autoImplicit false

namespace Modelica

open Build

structure ConnectorVariable where
  name : String
  prefixes : List String
  subscripts : List (Option (List Expr))

namespace ConnectorVariable

-- Neither flow nor constant nor parameter.
def isPotential (x : ConnectorVariable) : Bool :=
  match x.prefixes with
  | [] => true
  | first :: _ => first = "input" || first = "output"

def isFlow (x : ConnectorVariable) : Bool := x.prefixes = ["flow"]

def isFixed (x : ConnectorVariable) : Bool :=
  match x.prefixes with
  | [] => false
  | first :: _ => first = "constant" || first = "parameter"

def supported (x : ConnectorVariable) : Bool := x.isPotential || x.isFlow || x.isFixed

end ConnectorVariable

structure Connection where
  left : ComponentRef
  right : ComponentRef
  sides : ConnectionSides
  members : List ConnectorVariable

def memberRef (connector : ComponentRef) (x : ConnectorVariable) : ComponentRef :=
  .mk (connector.name ++ "." ++ x.name) (connector.subscripts ++ x.subscripts) none

def memberFlow (connector : ComponentRef) (inner : Bool) (x : ConnectorVariable) : FlowVariable :=
  ⟨connector.name ++ "." ++ x.name, literals (connector.subscripts ++ x.subscripts), inner⟩

namespace Connection

def swap (c : Connection) : Connection :=
  ⟨c.right, c.left, ⟨c.sides.rightInner, c.sides.leftInner⟩, c.members⟩

def edge (c : Connection) (x : ConnectorVariable) : FlowEdge :=
  (memberFlow c.left c.sides.leftInner x, memberFlow c.right c.sides.rightInner x)

def edges (c : Connection) : List FlowEdge :=
  (c.members.filter (·.isFlow)).map c.edge

def equality (c : Connection) (x : ConnectorVariable) : Equation :=
  .simple (.ref (memberRef c.left x)) (.ref (memberRef c.right x)) ""

def equalities (c : Connection) : List Equation :=
  (c.members.filter (·.isPotential)).map c.equality

structure WellFormed (c : Connection) : Prop where
  left : allLiteral c.left.subscripts = true
  right : allLiteral c.right.subscripts = true
  literal : ∀ x ∈ c.members, allLiteral x.subscripts = true
  supported : ∀ x ∈ c.members, x.supported = true

end Connection

def allEdges (cs : List Connection) : List FlowEdge := cs.flatMap (·.edges)

def memberValue {G : Type} (v : Valuation G) (connector : ComponentRef) (x : ConnectorVariable) :
    G :=
  v (connector.name ++ "." ++ x.name) (literals (connector.subscripts ++ x.subscripts))

-- What connections say about the values of variables, among them the flow variables of a class.
structure Connected {G : Type} [AddCommGroup G] (v : Valuation G) (cs : List Connection)
    (flows : List String) : Prop where
  equal : ∀ c ∈ cs, ∀ x ∈ c.members, x.isPotential = true →
    memberValue v c.left x = memberValue v c.right x
  balanced : ∀ x, IsEnd (allEdges cs) x → ∑ y ∈ component (allEdges cs) x, y.net v = 0
  idle : ∀ n ∈ flows, (∀ x, IsEnd (allEdges cs) x → x.name ≠ n) → v n [] = 0

def SameConnections (cs ds : List Connection) : Prop :=
  ∀ c, (c ∈ cs ∨ c.swap ∈ cs) ↔ (c ∈ ds ∨ c.swap ∈ ds)

section Invariance

theorem mem_allEdges (cs : List Connection) (e : FlowEdge) :
    e ∈ allEdges cs ↔ ∃ c ∈ cs, ∃ x ∈ c.members, x.isFlow = true ∧ c.edge x = e := by
  simp only [allEdges, Connection.edges, List.mem_flatMap, List.mem_map, List.mem_filter, and_assoc]

variable {cs ds : List Connection}

section

variable (same : SameConnections cs ds)
include same

theorem SameConnections.edge (e : FlowEdge) (member : e ∈ allEdges cs) :
    e ∈ allEdges ds ∨ (e.2, e.1) ∈ allEdges ds := by
  obtain ⟨c, there, x, inside, flow, rfl⟩ := (mem_allEdges cs e).1 member
  obtain here | turned := (same c).1 (.inl there)
  · exact .inl ((mem_allEdges ds _).2 ⟨c, here, x, inside, flow, rfl⟩)
  · exact .inr ((mem_allEdges ds _).2 ⟨c.swap, turned, x, inside, flow, rfl⟩)

theorem SameConnections.symm : SameConnections ds cs := fun c => (same c).symm

theorem SameConnections.linked (x y : FlowVariable) (linked : Linked (allEdges cs) x y) : Linked (allEdges ds) x y := by
  refine linked.closed ⟨.refl _, .symm, .trans⟩ ?_
  intro e member
  obtain here | turned := same.edge e member
  · exact .of_mem here
  · exact (Linked.of_mem turned).symm

theorem SameConnections.isEnd (x : FlowVariable) (met : IsEnd (allEdges cs) x) : IsEnd (allEdges ds) x := by
  obtain ⟨e, member, side⟩ := met
  obtain here | turned := same.edge e member
  · exact ⟨e, here, side⟩
  · exact ⟨(e.2, e.1), turned, side.symm⟩

theorem SameConnections.component (x : FlowVariable) (met : IsEnd (allEdges cs) x) :
    component (allEdges cs) x = component (allEdges ds) x := by
  ext y
  rw [mem_component _ x met, mem_component _ x (same.isEnd x met)]
  exact ⟨same.linked x y, same.symm.linked x y⟩

end

theorem SameConnections.connected {G : Type} [AddCommGroup G] {v : Valuation G}
    {flows : List String} (same : SameConnections cs ds) (connected : Connected v cs flows) :
    Connected v ds flows where
  equal d there x inside potential := by
    obtain here | turned := (same d).2 (.inl there)
    · exact connected.equal d here x inside potential
    · exact (connected.equal d.swap turned x inside potential).symm
  balanced x met := by
    have back := same.symm.isEnd x met
    rw [← same.component x back]
    exact connected.balanced x back
  idle n member free := connected.idle n member fun x met => free x (same.isEnd x met)

end Invariance

end Modelica
