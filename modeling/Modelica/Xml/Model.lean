import Modelica.Script
import Modelica.Xml

set_option autoImplicit false

-- A flat model as an XML document. Each time the walk through the model meets a component, a new element is
-- made for it, and the class takes the last one, out of the equation that has it.

namespace Modelica.Xml

structure Made where
  symbols : List (SymbolId × Element) := []
  count : Nat := 0

abbrev Making (α : Type) := StateT Made (Except Error) α

inductive Item where
  | element (e : Element)
  | missing
  | list

def fail {α : Type} (e : Error) : Making α := StateT.lift (.error e)

def Item.get : Item → Making Element
  | .element e => pure e
  | .missing => fail .unsupported
  | .list => fail .wrongShape

def Item.getAll : List Item → Making (List Element)
  | [] => pure []
  | i :: is => do
    let e ← i.get
    return e :: (← Item.getAll is)

def make (tag : String) (attributes : List (String × String)) (children : List Element) :
    Making Element :=
  if attributes.all fun a => a.2.toList.all isLegal then pure (.mk tag attributes children none)
  else fail .illegalCharacter

def literalOf : Expr → Making Literal
  | .literal v => pure v
  | _ => fail .notApplicable

def variability (prefixes : List String) : Option String :=
  ["discrete", "continuous", "parameter", "constant"].find? fun v => prefixes.contains v

def valueItem (name : String) (e : Expr) : Making (List Element) := do
  match ← literalOf e with
  | .absent => return []
  | v =>
    let real ← make "real" [("value", v.text)] []
    return [← make "item" [("name", name)] [real]]

def fixedItem (e : Expr) : Making (List Element) := do
  if (← literalOf e).holds then
    let yes ← make "true" [] []
    return [← make "item" [("name", "fixed")] [yes]]
  return []

def typeName (lib : Library) : SymbolType → Making String
  | .named r => pure r.name
  | .instance_ c =>
    match (lib.classOf c).name with
    | some n => pure n
    | none => fail .wrongShape
  | .connector _ => fail .notApplicable

def component (lib : Library) (id : SymbolId) : Making Unit := do
  let s := lib.symbolOf id
  let start ← valueItem "start" s.start
  let value ← valueItem "value" s.value
  let fixed ← fixedItem s.fixed
  let modifier ← make "modifier" [] (start ++ value ++ fixed)
  let builtin ← make "builtin" [("name", ← typeName lib s.type)] []
  let attributes := [("name", s.name)] ++
    (variability s.prefixes).toList.map fun v => ("variability", v)
  let _ ← make "component" attributes []
  modify fun m =>
    { symbols := (id, .mk "component" attributes [builtin, modifier] (some m.count)) :: m.symbols
      count := m.count + 1 }

def componentOf (id : SymbolId) : Making Element := do
  match (← get).symbols.lookup id with
  | some e => pure e
  | none => fail .unsupported

def applied (name : String) (operands : List Item) : Making Element := do
  let children ← Item.getAll operands
  match children with
  | [_] => make "operator" [("name", name)] children
  | _ => make "apply" [("builtin", name)] children

structure Context where
  lib : Library
  visit : Entry → Making Unit

mutual

def item (ctx : Context) : Expr → Making Item
  | .literal v => do return .element (← make "real" [("value", v.text)] [])
  | .ref r => do
    visitRef ctx r
    return .element (.mk "local" [("name", r.name)] [] none)
  | .apply (.named o) es => do
    let es ← items ctx es
    return .element (← applied o es)
  | .apply (.function r) es => do
    visitRef ctx r
    let es ← items ctx es
    return .element (← applied r.name es)
  | .conditional cs es => do
    let _ ← items ctx cs
    let _ ← items ctx es
    return .missing
  | .array es => do
    let _ ← items ctx es
    return .missing
  | .slice a b c => do
    let _ ← item ctx a
    let _ ← item ctx b
    let _ ← item ctx c
    return .missing
  | .tuple es => do
    let _ ← items ctx es
    return .list
  | .component id => do
    ctx.visit (.symbol id)
    return .element (← componentOf id)
  | .modification id => do
    ctx.visit (.modification id)
    return .element (← make "modifier" [] [])

def items (ctx : Context) : List Expr → Making (List Item)
  | [] => pure []
  | e :: es => do
    let e ← item ctx e
    return e :: (← items ctx es)

def visitRef (ctx : Context) : ComponentRef → Making Unit
  | .mk name groups none => do
    visitGroups ctx groups
    let _ ← make "local" [("name", name)] []
  | .mk name groups (some c) => do
    visitGroups ctx groups
    visitRef ctx c
    let _ ← make "local" [("name", name)] []

def visitGroups (ctx : Context) : List (Option (List Expr)) → Making Unit
  | [] => pure ()
  | none :: rest => visitGroups ctx rest
  | some es :: rest => do
    let _ ← items ctx es
    visitGroups ctx rest

end

mutual

def equation (ctx : Context) : Equation → Making Item
  | .simple l r _ => do
    let l ← item ctx l
    let r ← item ctx r
    let l ← l.get
    let r ← r.get
    return .element (← make "equal" [] [l, r])
  | .ifThen cs bs _ => do
    let _ ← items ctx cs
    let _ ← blocks ctx bs
    return .missing
  | .whenThen cs bs _ => do
    let cs ← items ctx cs
    let bs ← blocks ctx bs
    let condition ← (cs.headD .missing).get
    let body ← Item.getAll (bs.headD [])
    let condition ← make "cond" [] [condition]
    let body ← make "then" [] body
    return .element (← make "when" [] [condition, body])
  | .forLoop is es _ => do
    let _ ← items ctx (is.map ForIndex.domain)
    let _ ← equations ctx es
    return .missing
  | .connect l r _ _ => do
    visitRef ctx l
    visitRef ctx r
    return .missing
  | .call name es _ => do
    let es ← items ctx es
    let children ← Item.getAll es
    return .element (← make "apply" [("builtin", name)] children)

def equations (ctx : Context) : List Equation → Making (List Item)
  | [] => pure []
  | e :: es => do
    let e ← equation ctx e
    return e :: (← equations ctx es)

def blocks (ctx : Context) : List (List Equation) → Making (List (List Item))
  | [] => pure []
  | b :: bs => do
    let b ← equations ctx b
    return b :: (← blocks ctx bs)

end

def visitPieces (ctx : Context) : List Piece → Making Unit
  | [] => pure ()
  | .expr e :: rest => do
    let _ ← item ctx e
    visitPieces ctx rest
  | .entry e :: rest => do
    ctx.visit e
    visitPieces ctx rest

def classElement (ctx : Context) (c : ClassDef) : Making Element := do
  let (before, behind) := Script.outerPieces c
  visitPieces ctx before
  let _ ← equations ctx c.initialEquations
  let equationItems ← equations ctx c.equations
  let _ ← items ctx (c.constraints.flatMap Constraint.exprs)
  let _ ← items ctx (Statement.allExprs c.initialStatements)
  let _ ← items ctx (Statement.allExprs c.statements)
  visitPieces ctx behind
  let components ← c.symbols.values.mapM componentOf
  let equationElements ← Item.getAll equationItems
  let all ← make "equation" [] equationElements
  let body ← make "class" [("kind", "model")]
    (components ++ [all.without (components.filterMap Element.mark)])
  match c.name with
  | none => fail .wrongShape
  | some name => make "classDefinition" [("name", name)] [body]

def visit (lib : Library) : Nat → Entry → Making Unit
  | 0, _ => fail .unbounded
  | fuel + 1, e => do
    let ctx : Context := ⟨lib, visit lib fuel⟩
    match e with
    | .class_ c =>
      let _ ← classElement ctx (lib.classOf c)
    | .symbol s =>
      visitPieces ctx (lib.pieces e)
      component lib s
    | .modification m =>
      visitPieces ctx (lib.pieces e)
      unless (lib.modificationOf m).arguments.isEmpty do fail .unsupported
    | .argument _ => visitPieces ctx (lib.pieces e)

def namespaces : List (String × String) :=
  [("xmlns:py", "http://codespeak.net/lxml/objectify/pytype"),
   ("xmlns:xsi", "http://www.w3.org/2001/XMLSchema-instance"),
   ("xmlns:xsd", "http://www.w3.org/2001/XMLSchema")]

def document (lib : Library) (root : ClassId) : Making Element := do
  let ctx : Context := ⟨lib, visit lib (lib.size + 1)⟩
  let classes ← (lib.classOf root).classes.values.mapM fun c =>
    classElement ctx (lib.classOf c)
  let declarations ← make "declarations" [] classes
  make "modelica" (namespaces ++ [("format", "1.0")]) [declarations]

def ofModel (lib : Library) (root : ClassId) : Except Error String := do
  let (e, _) ← (document lib root).run {}
  return render 0 e

end Modelica.Xml

namespace Modelica

def Build.xml (root : ClassId) (r : ComponentRef) : Build String := do
  let flat ← flatten (← copyClass root) r
  liftExcept (Xml.ofModel (← get) flat)

end Modelica
