import Modelica.Library.Flatten

set_option autoImplicit false

namespace Modelica

def Literal.text : Literal → String
  | .absent => "None"
  | .bool b => if b then "True" else "False"
  | .integer n => toString n
  | .real x => Decimal.plain.write x
  | .string s => s

def Literal.holds : Literal → Bool
  | .absent => false
  | .bool b => b
  | .integer n => n ≠ 0
  | .real x => x.significand ≠ 0 || x.isInfinite || x.isNaN
  | .string s => s ≠ ""

namespace Script

def reserved : List String :=
  ["psi", "clear", "copy", "fromkeys", "get", "items", "keys", "pop", "popitem", "setdefault",
   "update", "values", "__class__", "__class_getitem__", "__contains__", "__delattr__",
   "__delitem__", "__dir__", "__doc__", "__eq__", "__format__", "__ge__", "__getattribute__",
   "__getitem__", "__getstate__", "__gt__", "__hash__", "__init__", "__init_subclass__",
   "__ior__", "__iter__", "__le__", "__len__", "__lt__", "__ne__", "__new__", "__or__",
   "__reduce__", "__reduce_ex__", "__repr__", "__reversed__", "__ror__", "__setattr__",
   "__setitem__", "__sizeof__", "__str__", "__subclasshook__"]

-- Appends underscores until a name is not reserved. No reserved name is another with as many underscores behind
-- it as there are reserved names.
def avoid : Nat → String → String
  | 0, name => name
  | fuel + 1, name => if reserved.contains name then avoid fuel (name ++ "_") else name

def mangle (name : String) : String :=
  avoid reserved.length (Text.replace name "." "__")

inductive Fragment where
  | text (s : String)
  | missing
  | list

def Fragment.get : Fragment → Except Error String
  | .text s => .ok s
  | .missing => .error .unsupported
  | .list => .error .wrongShape

def Fragment.getAll : List Fragment → Except Error (List String)
  | [] => .ok []
  | f :: fs => do
    let s ← f.get
    return s :: (← Fragment.getAll fs)

def called (operator : Operator) (operands : List Fragment) : Except Error String := do
  let arguments ← Fragment.getAll operands
  match operator with
  | .named _ => .error .notApplicable
  | .function r => return r.name ++ "(" ++ Text.join "," arguments ++ ")"

def applied (operator : Operator) (operands : List Fragment) : Except Error String := do
  let name :=
    match operator with
    | .named o => o
    | .function r => r.text
  match name, operands with
  | "der", [] => .error .outOfRange
  | "der", e :: _ => return "(" ++ (← e.get) ++ ").diff(self.t)"
  | o, operands =>
    match operands with
    | [l, r] =>
      if ["*", "+", "-", "/", "^"].contains o then
        let l ← l.get
        let r ← r.get
        return l ++ " " ++ (if o = "^" then "**" else o) ++ " " ++ r
      else called operator operands
    | [e] =>
      if ["+", "-"].contains o then return o ++ " " ++ (← e.get)
      else called operator operands
    | _ => called operator operands

structure Context where
  visit : Entry → Except Error Unit
  name : SymbolId → String

mutual

def fragment (ctx : Context) : Expr → Except Error Fragment
  | .literal v => .ok (.text v.text)
  | .ref r => do
    visitRef ctx r
    return .text (mangle r.name)
  | .apply (.named o) es => do
    let es ← fragments ctx es
    return .text (← applied (.named o) es)
  | .apply (.function r) es => do
    visitRef ctx r
    let es ← fragments ctx es
    return .text (← applied (.function r) es)
  | .conditional cs es => do
    let _ ← fragments ctx cs
    let _ ← fragments ctx es
    return .missing
  | .array es => do
    let _ ← fragments ctx es
    return .missing
  | .slice a b c => do
    let _ ← fragment ctx a
    let _ ← fragment ctx b
    let _ ← fragment ctx c
    return .missing
  | .tuple es => do
    let _ ← fragments ctx es
    return .list
  | .component id => do
    ctx.visit (.symbol id)
    return .text (ctx.name id)
  | .modification id => do
    ctx.visit (.modification id)
    return .missing

def fragments (ctx : Context) : List Expr → Except Error (List Fragment)
  | [] => .ok []
  | e :: es => do
    let e ← fragment ctx e
    return e :: (← fragments ctx es)

def visitRef (ctx : Context) : ComponentRef → Except Error Unit
  | .mk _ groups none => visitGroups ctx groups
  | .mk _ groups (some c) => do
    visitGroups ctx groups
    visitRef ctx c

def visitGroups (ctx : Context) : List (Option (List Expr)) → Except Error Unit
  | [] => .ok ()
  | none :: rest => visitGroups ctx rest
  | some es :: rest => do
    let _ ← fragments ctx es
    visitGroups ctx rest

end

mutual

def equation (ctx : Context) : Equation → Except Error String
  | .simple l r _ => do
    let l ← fragment ctx l
    let r ← fragment ctx r
    let l ← l.get
    let r ← r.get
    return l ++ " - (" ++ r ++ ")"
  | .ifThen cs bs _ => do
    let _ ← fragments ctx cs
    blocks ctx bs
    return ""
  | .whenThen cs bs _ => do
    let _ ← fragments ctx cs
    blocks ctx bs
    return ""
  | .forLoop is es _ => do
    let _ ← fragments ctx (is.map ForIndex.domain)
    let _ ← equations ctx es
    return ""
  | .connect l r _ _ => do
    visitRef ctx l
    visitRef ctx r
    return ""
  | .call _ es _ => do
    let _ ← fragments ctx es
    return ""

def equations (ctx : Context) : List Equation → Except Error (List String)
  | [] => .ok []
  | e :: es => do
    let e ← equation ctx e
    return e :: (← equations ctx es)

def blocks (ctx : Context) : List (List Equation) → Except Error Unit
  | [] => .ok ()
  | b :: bs => do
    let _ ← equations ctx b
    blocks ctx bs

end

def visitPieces (ctx : Context) : List Piece → Except Error Unit
  | [] => .ok ()
  | .expr e :: rest => do
    let _ ← fragment ctx e
    visitPieces ctx rest
  | .entry e :: rest => do
    ctx.visit e
    visitPieces ctx rest

def outerPieces (c : ClassDef) : List Piece × List Piece :=
  (ClassDef.pieces { c with
      initialEquations := [], equations := [], constraints := [], initialStatements := []
      statements := [], annotated := none, optimization := none, role := .definition },
    ClassDef.pieces { origin := c.origin, annotated := c.annotated, optimization := c.optimization
                      role := c.role })

def classEquations (ctx : Context) (c : ClassDef) : Except Error (List String) := do
  let (before, behind) := outerPieces c
  visitPieces ctx before
  let _ ← equations ctx c.initialEquations
  let texts ← equations ctx c.equations
  let _ ← fragments ctx (c.constraints.flatMap Constraint.exprs)
  let _ ← fragments ctx (Statement.allExprs c.initialStatements)
  let _ ← fragments ctx (Statement.allExprs c.statements)
  visitPieces ctx behind
  return texts

def symbolName (lib : Library) (s : SymbolId) : String :=
  mangle (lib.symbolOf s).name

def visit (lib : Library) : Nat → Entry → Except Error Unit
  | 0, _ => .error .unbounded
  | fuel + 1, e =>
    let ctx : Context := ⟨visit lib fuel, symbolName lib⟩
    match e with
    | .class_ c => do
      let _ ← classEquations ctx (lib.classOf c)
      return ()
    | e => visitPieces ctx (lib.pieces e)

def context (lib : Library) : Context := ⟨visit lib (lib.size + 1), symbolName lib⟩

def initialValue (s : Symbol) : String :=
  match s.value with
  | .literal .absent =>
    match s.start with
    | .literal v => if v.holds then v.text else "0.0"
    | _ => "0.0"
  | .literal v => v.text
  | _ => ""

def insertByOrder (s : Symbol) : List Symbol → List Symbol
  | [] => [s]
  | t :: rest => if s.order < t.order then s :: t :: rest else t :: insertByOrder s rest

def byOrder (symbols : List Symbol) : List Symbol :=
  symbols.foldl (fun sorted s => insertByOrder s sorted) []

structure Declarations where
  states : List Symbol := []
  unknowns : List Symbol := []
  constants : List Symbol := []
  parameters : List Symbol := []
  inputs : List Symbol := []
  outputs : List Symbol := []

def Declarations.addAs (d : Declarations) (s : Symbol) (word : String) : Declarations :=
  match word with
  | "state" => { d with states := d.states ++ [s] }
  | "constant" => { d with constants := d.constants ++ [s] }
  | "parameter" => { d with parameters := d.parameters ++ [s] }
  | "input" => { d with inputs := d.inputs ++ [s] }
  | "output" => { d with outputs := d.outputs ++ [s] }
  | _ => d

def Declarations.add (d : Declarations) (s : Symbol) : Declarations :=
  if s.prefixes.isEmpty then { d with unknowns := d.unknowns ++ [s] }
  else s.prefixes.foldl (fun d word => d.addAs s word) d

def declarations (symbols : List Symbol) : Declarations :=
  let d := (byOrder symbols).foldl Declarations.add {}
  { d with unknowns :=
      d.unknowns ++ d.outputs.filter fun s => !s.prefixes.contains "state" }

def namesOf (symbols : List Symbol) : String :=
  Text.join ", " (symbols.map fun s => mangle s.name)

def indent : String := "        "

def deeper : String := "            "

def declare (title make field : String) (symbols : List Symbol) : String :=
  let names := namesOf symbols
  indent ++ "# " ++ title ++ "\n" ++ indent ++
    (if names = "" then ""
      else names ++ " = " ++ make ++ "('" ++ Text.replace names "__" "." ++ "')\n" ++ indent) ++
    "self." ++ field ++ " = sympy.Matrix([" ++ names ++ "])\n"

def startValues (field : String) (symbols : List Symbol) : String :=
  indent ++ "self." ++ field ++ "0 = \x7b\n" ++ deeper ++
    String.join (symbols.map fun s =>
      mangle s.name ++ " : " ++ initialValue s ++ ",\n" ++ deeper) ++ "\x7d\n"

def classText (name : String) (symbols : List Symbol) (equations : List String) : String :=
  let d := declarations symbols
  let dynamic := "mech.dynamicsymbols"
  let constant := "sympy.symbols"
  "\n\nclass " ++ name ++ "(OdeModel):\n\n    def __init__(self):\n\n" ++
    indent ++ "super(" ++ name ++ ", self).__init__()\n\n" ++
    declare "states" dynamic "x" d.states ++ startValues "x" d.states ++ "\n" ++
    declare "variables" dynamic "v" d.unknowns ++ "\n" ++
    declare "constants" constant "c" d.constants ++ startValues "c" d.constants ++ "\n" ++
    declare "parameters" constant "p" d.parameters ++ startValues "p" d.parameters ++ "\n" ++
    declare "inputs" dynamic "u" d.inputs ++ startValues "u" d.inputs ++ "\n" ++
    declare "outputs" dynamic "y" d.outputs ++ "\n" ++
    indent ++ "# equations\n" ++ indent ++ "self.eqs = [\n" ++ deeper ++
    String.join (equations.map fun e => e ++ ",\n" ++ deeper) ++ "]\n\n" ++
    indent ++ "self.compute_fg()"

def preamble : String :=
  "\n# do not edit, generated by pymoca\n\nfrom __future__ import print_function, division\n" ++
    "import sympy\nimport sympy.physics.mechanics as mech\n" ++
    "from pymoca.backends.sympy.runtime import OdeModel\nfrom sympy import sin, cos, tan"

def classScript (lib : Library) (id : ClassId) : Except Error String := do
  let c := lib.classOf id
  let texts ← classEquations (context lib) c
  return classText (c.name.getD "None") (c.symbols.values.map lib.symbolOf) texts

def ofModel (lib : Library) (root : ClassId) : Except Error String := do
  let classes := (lib.classOf root).classes
  let texts ← classes.values.mapM (classScript lib)
  if 1 < classes.keys.length && classes.keys.any Option.isNone then .error .wrongShape
  return preamble ++ String.join (texts.map fun t => "\n" ++ t)

end Script

def Build.script (root : ClassId) (r : ComponentRef) : Build String := do
  let flat ← flatten (← copyClass root) r
  liftExcept (Script.ofModel (← get) flat)

end Modelica
