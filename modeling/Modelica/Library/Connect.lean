import Modelica.Flow
import Modelica.Library.Flat

set_option autoImplicit false

namespace Modelica

structure Connecting where
  equations : List Equation := []
  flows : FlowGroups := .empty
  idle : OrderedMap String SymbolId := .empty

namespace Build

def typeText : SymbolType → String
  | .named r => r.text
  | .instance_ _ => ""
  | .connector name => name.getD "None"

def literalSubscripts (r : ComponentRef) : Except Error (List Literal) :=
  (r.subscripts.filterMap id).flatten.mapM fun
    | .literal v => .ok v.canonical
    | _ => .error .notApplicable

def elementaryName (s : SymbolId) : Build String := do
  match (← symbolOf s).type with
  | .named r => pure r.name
  | _ => throw .notApplicable

def connectorClass (node : ClassId) (s : SymbolId) : Build ClassId := do
  let d ← symbolOf s
  match d.connectorType, d.type with
  | some c, _ => pure c
  | none, .named r => instantiable node r
  | none, _ => throw .notApplicable

def connectorOf (node : ClassId) (left right : SymbolId) : Build (Option ClassId) :=
  tryCatch (do
    let c ← connectorClass node left
    let _ ← connectorClass node right
    return some c) fun
      | .elementaryClass => pure none
      | e => throw e

def connectVariable (left right : ComponentRef) (sides : Option ConnectionSides) (v : Symbol)
    (work : Connecting) : Except Error Connecting := do
  let extra ←
    match v.type with
    | .named r => pure r.subscripts
    | _ => .error .notApplicable
  let leftRef : ComponentRef := .mk (left.name ++ "." ++ v.name) (left.subscripts ++ extra) none
  let rightRef : ComponentRef :=
    .mk (right.name ++ "." ++ v.name) (right.subscripts ++ extra) none
  let equal : Connecting :=
    { work with equations := work.equations ++ [.simple (.ref leftRef) (.ref rightRef) ""] }
  match v.prefixes with
  | [] => return equal
  | first :: _ =>
    if first = "input" || first = "output" then return equal
    else if v.prefixes = ["flow"] then
      match sides with
      | none => .error .notApplicable
      | some s =>
        let l : FlowVariable := ⟨leftRef.name, ← literalSubscripts leftRef, s.leftInner⟩
        let r : FlowVariable := ⟨rightRef.name, ← literalSubscripts rightRef, s.rightInner⟩
        return { work with
          flows := work.flows.connect l leftRef r rightRef
          idle := (work.idle.erase leftRef.name).erase rightRef.name }
    else if first = "constant" || first = "parameter" then return work
    else .error (.unsupportedConnector v.prefixes)

def connectEquation (fuel : Nat) (node : ClassId) (work : Connecting) :
    Equation → Build Connecting
  | .connect left right _ sides => do
    if left.child.isSome then
      throw (.unresolvedConnection left.text left.text right.text)
    if right.child.isSome then
      throw (.unresolvedConnection right.text left.text right.text)
    let l ← symbolEntry node left.name
    let r ← symbolEntry node right.name
    match ← connectorOf node l r with
    | none =>
      let known ← (do
        if (← elementaryName l) = "Real" then return (← elementaryName r) = "Real"
        else return false : Build Bool)
      unless known do
        warn ("Connector class " ++ typeText (← symbolOf l).type ++ " or " ++
          typeText (← symbolOf r).type ++ " not defined.  Assuming it to be an elementary type.")
      return { work with equations := work.equations ++ [.simple (.ref left) (.ref right) ""] }
    | some c =>
      let flat ← flattenClass fuel c
      let mut work := work
      for s in (← classOf flat).symbols.values do
        work ← liftExcept (connectVariable left right sides (← symbolOf s) work)
      return work
  | e => return { work with equations := work.equations ++ [e] }

def expandConnectors (fuel : Nat) (node : ClassId) : Build Unit := do
  let d ← classOf node
  let mut idle : OrderedMap String SymbolId := .empty
  for s in d.symbols.values do
    let symbol ← symbolOf s
    if symbol.prefixes.contains "flow" then idle := idle.insert symbol.name s
  let mut work : Connecting := { idle := idle }
  for e in d.equations do
    work ← connectEquation fuel node work e
  let balances := work.flows.distinct.map fun g =>
    Equation.simple (Expr.sum g.terms) (.integer 0) ""
  let zeros := work.idle.values.map fun s => Equation.simple (.component s) (.integer 0) ""
  let lib ← get
  let equations := work.equations ++ balances ++ zeros
  updateClass node fun d =>
    { d with
      equations := equations
      symbols := ⟨d.symbols.entries.filter fun e => (lib.symbolOf e.2).connectorType.isNone⟩ }

end Build

end Modelica
