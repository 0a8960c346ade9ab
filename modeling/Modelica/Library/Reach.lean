import Modelica.Expr.Traverse
import Modelica.Library.State

set_option autoImplicit false

-- What a class, a component or a modification is made of, in order, and all that can be reached from it. The
-- class around a class and the class in which an argument was written are not parts.

namespace Modelica

inductive Part where
  | ref (r : ComponentRef)
  | entry (e : Entry)

mutual

def Expr.parts : Expr → List Part
  | .literal _ => []
  | .ref r => [.ref r]
  | .apply o es => o.parts ++ Expr.allParts es
  | .conditional cs es => Expr.allParts cs ++ Expr.allParts es
  | .array es => Expr.allParts es
  | .slice a b c => a.parts ++ b.parts ++ c.parts
  | .tuple es => Expr.allParts es
  | .component id => [.entry (.symbol id)]
  | .modification id => [.entry (.modification id)]

def Expr.allParts : List Expr → List Part
  | [] => []
  | e :: es => e.parts ++ Expr.allParts es

def Operator.parts : Operator → List Part
  | .named _ => []
  | .function r => [.ref r]

end

inductive Piece where
  | expr (e : Expr)
  | entry (e : Entry)

def Part.entry? : Part → Option Entry
  | .ref _ => none
  | .entry e => some e

def Piece.parts : Piece → List Part
  | .expr e => e.parts
  | .entry e => [.entry e]

namespace Expr

def collecting : Mapping (StateM (Array Expr)) :=
  ⟨fun e => do modify (·.push e); pure e, fun r => do modify (·.push (.ref r)); pure r⟩

def collect {α : Type} (x : StateM (Array Expr) α) : List Expr :=
  (x.run #[]).2.toList

end Expr

def Equation.exprs (e : Equation) : List Expr := Expr.collect (Expr.collecting.equation e)

def Equation.allExprs (es : List Equation) : List Expr :=
  Expr.collect (Expr.collecting.equations es)

def Statement.exprs (s : Statement) : List Expr := Expr.collect (Expr.collecting.statement s)

def Statement.allExprs (ss : List Statement) : List Expr :=
  Expr.collect (Expr.collecting.statements ss)

def Constraint.exprs (c : Constraint) : List Expr := [c.left, c.right]

def SymbolType.pieces : SymbolType → List Piece
  | .named r => [.expr (.ref r)]
  | .instance_ c => [.entry (.class_ c)]
  | .connector _ => []

def modificationPieces (m : Option ModificationId) : List Piece :=
  m.toList.map fun m => .entry (.modification m)

def Symbol.pieces (s : Symbol) : List Piece :=
  s.type.pieces ++
    (s.dimensions.flatten ++ [s.start, s.min, s.max, s.nominal, s.value, s.fixed, s.unit, s.free,
      s.initialGuess]).map .expr ++
    modificationPieces s.modification ++
    s.connectorType.toList.map fun c => .entry (.class_ c)

def ArgumentValue.pieces : ArgumentValue → List Piece
  | .element component changes => (.ref component :: changes).map .expr
  | .clause c =>
    (.ref c.type :: c.dimensions.flatten).map .expr ++ c.symbols.map fun s => .entry (.symbol s)
  | .shortClass s => [.expr (.ref s.component)]

def ClassDef.pieces (c : ClassDef) : List Piece :=
  c.imports.map (fun i => .expr (.ref i.component)) ++
    c.extends_.flatMap
      (fun e => [.expr (.ref e.component), .entry (.modification e.modification)]) ++
    c.classes.values.map (fun d => .entry (.class_ d)) ++
    c.symbols.values.map (fun s => .entry (.symbol s)) ++
    c.functions.values.map (fun d => .entry (.class_ d)) ++
    (Equation.allExprs c.initialEquations ++ Equation.allExprs c.equations ++
      c.constraints.flatMap Constraint.exprs ++ Statement.allExprs c.initialStatements ++
      Statement.allExprs c.statements).map .expr ++
    modificationPieces c.annotated ++ modificationPieces c.optimization ++
    match c.role with
    | .instance_ environment => [.entry (.modification environment)]
    | _ => []

namespace Library

def pieces (lib : Library) : Entry → List Piece
  | .class_ id => (lib.classOf id).pieces
  | .symbol id => (lib.symbolOf id).pieces
  | .modification id =>
    (lib.modificationOf id).arguments.map fun a => .entry (.argument a)
  | .argument id => (lib.argumentOf id).value.pieces

def parts (lib : Library) (e : Entry) : List Part :=
  (lib.pieces e).flatMap Piece.parts

def children (lib : Library) (e : Entry) : List Entry :=
  (lib.parts e).filterMap Part.entry?

-- As `children`, but not into arguments that know where they were written.
def openChildren (lib : Library) (e : Entry) : List Entry :=
  match e with
  | .argument id => if (lib.argumentOf id).scope.isSome then [] else lib.children e
  | e => lib.children e

-- All that can be reached, each thing once and behind what it is made of, in front of what was found before.
def visit (children : Entry → List Entry) : Nat → List Entry → Entry → List Entry
  | 0, found, _ => found
  | fuel + 1, found, e =>
    if found.contains e then found
    else e :: (children e).foldl (visit children fuel) found

def reachFrom (lib : Library) (children : Entry → List Entry) (starts : List Entry) :
    List Entry :=
  (starts.foldl (visit children (lib.size + 1)) []).reverse

end Library

namespace Build

def mapEntry {m : Type → Type} [Monad m] [MonadLiftT (EStateM Error Library) m]
    (f : Mapping m) : Entry → m Unit
  | .class_ id => do
    let d ← classOf id
    let imports ← d.imports.mapM fun i => do return { i with component := ← f.ref i.component }
    let extends_ ← d.extends_.mapM fun e => do
      return { e with component := ← f.ref e.component }
    let initialEquations ← f.equations d.initialEquations
    let equations ← f.equations d.equations
    let constraints ← f.constraints d.constraints
    let initialStatements ← f.statements d.initialStatements
    let statements ← f.statements d.statements
    updateClass id fun d =>
      { d with
        imports := imports
        extends_ := extends_
        initialEquations := initialEquations
        equations := equations
        constraints := constraints
        initialStatements := initialStatements
        statements := statements }
  | .symbol id => do
    let s ← symbolOf id
    let type ←
      match s.type with
      | .named r => do pure (SymbolType.named (← f.ref r))
      | type => pure type
    let dimensions ← f.rows s.dimensions
    let start ← f.expr s.start
    let min ← f.expr s.min
    let max ← f.expr s.max
    let nominal ← f.expr s.nominal
    let value ← f.expr s.value
    let fixed ← f.expr s.fixed
    let unit ← f.expr s.unit
    let free ← f.expr s.free
    let initialGuess ← f.expr s.initialGuess
    updateSymbol id fun s =>
      { s with
        type := type
        dimensions := dimensions
        start := start
        min := min
        max := max
        nominal := nominal
        value := value
        fixed := fixed
        unit := unit
        free := free
        initialGuess := initialGuess }
  | .modification _ => pure ()
  | .argument id => do
    let value ←
      match (← argumentOf id).value with
      | .element component changes => do
        let component ← f.ref component
        pure (ArgumentValue.element component (← f.exprs changes))
      | .clause c => do
        let type ← f.ref c.type
        pure (ArgumentValue.clause { c with type := type, dimensions := ← f.rows c.dimensions })
      | .shortClass s => do
        pure (ArgumentValue.shortClass { s with component := ← f.ref s.component })
    updateArgument id fun a => { a with value := value }

end Build

end Modelica
