import Modelica.Library.Lookup

set_option autoImplicit false

-- The outline of a model: one uniform shape for all that a library holds, as records with named fields, lists
-- and tables. It is what is shown to the outside.

namespace Modelica

inductive Outline where
  | null
  | bool (b : Bool)
  | integer (n : Int)
  | real (x : Binary64)
  | string (s : String)
  | visibility (v : Visibility)
  | list (items : List Outline)
  | table (entries : List (Option String × Outline))
  | record (kind : String) (fields : List (String × Outline))
  | entry (e : Entry)
  -- A class that is referred to and not part of what is shown.
  | link (c : Option ClassId)

instance : Inhabited Outline := ⟨.null⟩

namespace Outline

def strings (ss : List String) : Outline := .list (ss.map .string)

def optional {α : Type} (f : α → Outline) : Option α → Outline
  | none => .null
  | some a => f a

end Outline

open Outline

def Literal.outline : Literal → Outline
  | .absent => .null
  | .bool b => .bool b
  | .integer n => .integer n
  | .real x => .real x
  | .string s => .string s

mutual

def Expr.outline : Expr → Outline
  | .literal v => .record "Primary" [("value", v.outline)]
  | .ref r => r.outline
  | .apply o es =>
    .record "Expression" [("operator", o.outline), ("operands", .list (Expr.outlines es))]
  | .conditional cs es =>
    .record "IfExpression"
      [("conditions", .list (Expr.outlines cs)), ("expressions", .list (Expr.outlines es))]
  | .array es => .record "Array" [("values", .list (Expr.outlines es))]
  | .slice a b c =>
    .record "Slice" [("start", a.outline), ("stop", b.outline), ("step", c.outline)]
  | .tuple es => .list (Expr.outlines es)
  | .component id => .entry (.symbol id)
  | .modification id => .entry (.modification id)

def Expr.outlines : List Expr → List Outline
  | [] => []
  | e :: es => e.outline :: Expr.outlines es

def ComponentRef.outline : ComponentRef → Outline
  | .mk name groups none =>
    .record "ComponentRef"
      [("name", .string name), ("indices", .list (Expr.groupOutlines groups)),
       ("child", .list [])]
  | .mk name groups (some c) =>
    .record "ComponentRef"
      [("name", .string name), ("indices", .list (Expr.groupOutlines groups)),
       ("child", .list [c.outline])]

def Expr.groupOutlines : List (Option (List Expr)) → List Outline
  | [] => []
  | none :: rest => .list [.null] :: Expr.groupOutlines rest
  | some es :: rest => .list (Expr.outlines es) :: Expr.groupOutlines rest

def Operator.outline : Operator → Outline
  | .named s => .string s
  | .function r => r.outline

end

def ForIndex.outline (i : ForIndex) : Outline :=
  .record "ForIndex" [("name", .string i.name), ("expression", i.domain.outline)]

def conditionOutlines (conditions : List Expr) (blocks : Nat) : Outline :=
  .list (Expr.outlines conditions ++
    if conditions.length + 1 = blocks then [.bool true] else [])

mutual

def Equation.outline : Equation → Outline
  | .simple l r c =>
    .record "Equation" [("left", l.outline), ("right", r.outline), ("comment", .string c)]
  | .ifThen cs bs c =>
    .record "IfEquation"
      [("conditions", conditionOutlines cs bs.length),
       ("blocks", .list (Equation.blockOutlines bs)), ("comment", .string c)]
  | .whenThen cs bs c =>
    .record "WhenEquation"
      [("conditions", conditionOutlines cs bs.length),
       ("blocks", .list (Equation.blockOutlines bs)), ("comment", .string c)]
  | .forLoop is es c =>
    .record "ForEquation"
      [("indices", .list (is.map ForIndex.outline)),
       ("equations", .list (Equation.outlines es)), ("comment", .string c)]
  | .connect l r c sides =>
    .record "ConnectClause"
      ([("left", l.outline), ("right", r.outline), ("comment", .string c)] ++
        match sides with
        | none => []
        | some s => [("__left_inner", .bool s.leftInner), ("__right_inner", .bool s.rightInner)])
  | .call n es c =>
    .record "Function"
      [("name", .string n), ("arguments", .list (Expr.outlines es)), ("comment", .string c)]

def Equation.outlines : List Equation → List Outline
  | [] => []
  | e :: es => e.outline :: Equation.outlines es

def Equation.blockOutlines : List (List Equation) → List Outline
  | [] => []
  | b :: bs => .list (Equation.outlines b) :: Equation.blockOutlines bs

end

mutual

def Statement.outline : Statement → Outline
  | .assign ls r c =>
    .record "AssignmentStatement"
      [("left", .list (Expr.outlines ls)), ("right", r.outline), ("comment", .string c)]
  | .ifThen cs bs c =>
    .record "IfStatement"
      [("conditions", conditionOutlines cs bs.length),
       ("blocks", .list (Statement.blockOutlines bs)), ("comment", .string c)]
  | .forLoop is ss c =>
    .record "ForStatement"
      [("indices", .list (is.map ForIndex.outline)),
       ("statements", .list (Statement.outlines ss)), ("comment", .string c)]

def Statement.outlines : List Statement → List Outline
  | [] => []
  | s :: ss => s.outline :: Statement.outlines ss

def Statement.blockOutlines : List (List Statement) → List Outline
  | [] => []
  | b :: bs => .list (Statement.outlines b) :: Statement.blockOutlines bs

end

def Constraint.outline (c : Constraint) : Outline :=
  .record "Constraint"
    [("left", c.left.outline), ("right", c.right.outline), ("comment", .string c.comment),
     ("operand", .string c.relation)]

def dimensionOutline (dims : List (List Expr)) : Outline :=
  .list (dims.map fun es => .list (Expr.outlines es))

def SymbolType.outline : SymbolType → Outline
  | .named r => r.outline
  | .instance_ c => .entry (.class_ c)
  | .connector name => optional .string name

def Symbol.outline (s : Symbol) : Outline :=
  .record "Symbol"
    ([("name", .string s.name), ("type", s.type.outline), ("prefixes", strings s.prefixes),
      ("redeclare", .bool s.redeclare), ("final", .bool s.final), ("inner", .bool s.inner),
      ("outer", .bool s.outer), ("dimensions", dimensionOutline s.dimensions),
      ("comment", .string s.comment), ("start", s.start.outline), ("min", s.min.outline),
      ("max", s.max.outline), ("nominal", s.nominal.outline), ("value", s.value.outline),
      ("fixed", s.fixed.outline), ("unit", s.unit.outline), ("free", s.free.outline),
      ("initialGuess", s.initialGuess.outline), ("id", .integer s.number),
      ("order", .integer s.order), ("visibility", .visibility s.visibility),
      ("class_modification", optional (fun m => .entry (.modification m)) s.modification)] ++
      match s.connectorType with
      | none => []
      | some c => [("__connector_type", .entry (.class_ c))])

def Modification.outline (m : Modification) : Outline :=
  .record "ClassModification" [("arguments", .list (m.arguments.map fun a => .entry (.argument a)))]

def ArgumentValue.outline : ArgumentValue → Outline
  | .element component changes =>
    .record "ElementModification"
      [("component", component.outline), ("modifications", .list (Expr.outlines changes))]
  | .clause c =>
    .record "ComponentClause"
      [("prefixes", strings c.prefixes), ("type", c.type.outline),
       ("dimensions", dimensionOutline c.dimensions), ("comment", .list []),
       ("symbol_list", .list (c.symbols.map fun s => .entry (.symbol s)))]
  | .shortClass s =>
    .record "ShortClassDefinition"
      [("name", .string s.name), ("type", .string s.type), ("component", s.component.outline),
       ("class_modification", Modification.outline {})]

def Argument.outline (a : Argument) : Outline :=
  .record "ClassModificationArgument"
    [("value", a.value.outline), ("scope", .link a.scope), ("redeclare", .bool a.redeclare)]

def ExtendsClause.outline (e : ExtendsClause) : Outline :=
  .record "ExtendsClause"
    [("component", e.component.outline),
     ("class_modification", .entry (.modification e.modification)),
     ("visibility", .visibility e.visibility)]

def ImportClause.outline (i : ImportClause) : Outline :=
  .record "ImportAsClause" [("component", i.component.outline), ("name", .string i.name)]

def ClassRole.kind : ClassRole → String
  | .definition => "Class"
  | .instance_ _ => "InstanceClass"
  | .root => "Tree"

def ClassDef.outline (c : ClassDef) : Outline :=
  .record c.role.kind
    ([("name", optional .string c.name), ("imports", .list (c.imports.map ImportClause.outline)),
      ("extends", .list (c.extends_.map ExtendsClause.outline)),
      ("encapsulated", .bool c.encapsulated), ("partial", .bool c.isPartial),
      ("final", .bool c.final), ("type", .string c.type), ("comment", .string c.comment),
      ("classes", .table (c.classes.entries.map fun e => (e.1, .entry (.class_ e.2)))),
      ("symbols", .table (c.symbols.entries.map fun e => (some e.1, .entry (.symbol e.2)))),
      ("functions", .table (c.functions.entries.map fun e => (some e.1, .entry (.class_ e.2)))),
      ("initial_equations", .list (Equation.outlines c.initialEquations)),
      ("equations", .list (Equation.outlines c.equations)),
      ("constraints", .list (c.constraints.map Constraint.outline)),
      ("initial_statements", .list (Statement.outlines c.initialStatements)),
      ("statements", .list (Statement.outlines c.statements)),
      ("annotation",
        match c.annotated with
        | none => .list []
        | some m => .entry (.modification m)),
      ("optimization_attributes", optional (fun m => .entry (.modification m)) c.optimization),
      ("parent", .link c.parent)] ++
      match c.role with
      | .instance_ environment =>
        [("modification_environment", .entry (.modification environment))]
      | _ => [])

namespace Library

def outlineOf (lib : Library) : Entry → Outline
  | .class_ id => (lib.classOf id).outline
  | .symbol id => (lib.symbolOf id).outline
  | .modification id => (lib.modificationOf id).outline
  | .argument id => (lib.argumentOf id).outline

def open_ (lib : Library) : Outline → Outline
  | .entry e => lib.outlineOf e
  | o => o

end Library

namespace Outline

mutual

def mapEntries (f : Entry → Except Error Outline) : Outline → Except Error Outline
  | .list items => do return .list (← mapItems f items)
  | .table entries => do return .table (← mapTable f entries)
  | .record kind fields => do return .record kind (← mapFields f fields)
  | .entry e => f e
  | o => .ok o

def mapItems (f : Entry → Except Error Outline) : List Outline → Except Error (List Outline)
  | [] => .ok []
  | o :: os => do
    let o ← mapEntries f o
    return o :: (← mapItems f os)

def mapTable (f : Entry → Except Error Outline) :
    List (Option String × Outline) → Except Error (List (Option String × Outline))
  | [] => .ok []
  | (k, o) :: os => do
    let o ← mapEntries f o
    return (k, o) :: (← mapTable f os)

def mapFields (f : Entry → Except Error Outline) :
    List (String × Outline) → Except Error (List (String × Outline))
  | [] => .ok []
  | (k, o) :: os => do
    let o ← mapEntries f o
    return (k, o) :: (← mapFields f os)

end

def expand (lib : Library) : Nat → Outline → Except Error Outline
  | 0, _ => .error .unbounded
  | fuel + 1, o => mapEntries (fun e => expand lib fuel (lib.outlineOf e)) o

def full (lib : Library) (o : Outline) : Except Error Outline :=
  expand lib (lib.size + 2) o

end Outline

end Modelica
