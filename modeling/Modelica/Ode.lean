import Modelica.Formula
import Modelica.Script

set_option autoImplicit false

namespace Modelica

inductive Quantity where
  | function (name : String)
  | symbol (name : String)
deriving DecidableEq, Repr

inductive ElementaryFunction where
  | sin | cos | tan
deriving DecidableEq, Repr

inductive Term where
  | number (x : Float)
  | quantity (q : Quantity)
  | rate (name : String)
  | add (l r : Term)
  | sub (l r : Term)
  | mul (l r : Term)
  | div (l r : Term)
  | pow (l r : Term)
  | elementary (f : ElementaryFunction) (e : Term)

structure Ode where
  states : List String
  unknowns : List String
  constants : List String
  parameters : List String
  inputs : List String
  outputs : List String
  initialStates : List (String × Formula)
  constantValues : List (String × Formula)
  parameterValues : List (String × Formula)
  initialInputs : List (String × Formula)
  equations : List Formula

namespace Ode

def shownName (name : String) : String := Text.replace name "__" "."

def readValues (symbols : List Symbol) : Option (List (String × Formula)) :=
  symbols.mapM fun s => do
    let e ← Formula.read? (Script.initialValue s)
    return (Script.mangle s.name, e)

def ofDeclarations (d : Script.Declarations) (equations : List String) : Option Ode := do
  let names := fun (symbols : List Symbol) => symbols.map fun s => Script.mangle s.name
  let all := names (d.states ++ d.unknowns ++ d.constants ++ d.parameters ++ d.inputs ++ d.outputs)
  if !all.all Formula.isIdentifier then none
  return {
    states := names d.states
    unknowns := names d.unknowns
    constants := names d.constants
    parameters := names d.parameters
    inputs := names d.inputs
    outputs := names d.outputs
    initialStates := ← readValues d.states
    constantValues := ← readValues d.constants
    parameterValues := ← readValues d.parameters
    initialInputs := ← readValues d.inputs
    equations := ← equations.mapM Formula.read? }

def quantityOf? (o : Ode) (name : String) : Option Quantity :=
  if o.outputs.contains name || o.inputs.contains name then some (.function (shownName name))
  else if o.parameters.contains name || o.constants.contains name then
    some (.symbol (shownName name))
  else if o.unknowns.contains name || o.states.contains name then
    some (.function (shownName name))
  else none

def numberValue (text : String) : Float :=
  match Decimal.read? text.toList with
  | some x => Float.ofBits x.bits
  | none => 0.0

end Ode

namespace Term

def zero : Term := .number 0.0

def timeDerivative : Term → Option Term
  | .number _ => some zero
  | .quantity (.function n) => some (.rate n)
  | .quantity (.symbol _) => some zero
  | .rate _ => none
  | .add l r => do return .add (← l.timeDerivative) (← r.timeDerivative)
  | .sub l r => do return .sub (← l.timeDerivative) (← r.timeDerivative)
  | .mul l r => do
    return .add (.mul (← l.timeDerivative) r) (.mul l (← r.timeDerivative))
  | .div l r => do
    let dl ← l.timeDerivative
    let dr ← r.timeDerivative
    return .sub (.div dl r) (.div (.mul l dr) (.mul r r))
  | .pow l r => do
    let dl ← l.timeDerivative
    return .mul (.mul r (.pow l (.sub r (.number 1.0)))) dl
  | .elementary .sin e => do return .mul (.elementary .cos e) (← e.timeDerivative)
  | .elementary .cos e => do
    return .mul (.sub zero (.elementary .sin e)) (← e.timeDerivative)
  | .elementary .tan e => do
    return .mul (.add (.number 1.0) (.pow (.elementary .tan e) (.number 2.0)))
      (← e.timeDerivative)

end Term

namespace Ode

abbrev Resolved := Term × Bool

def elementaryFunction? : String → Option ElementaryFunction
  | "sin" => some .sin
  | "cos" => some .cos
  | "tan" => some .tan
  | _ => none

def combine (sign : FormulaSign) (l r : Resolved) : Resolved :=
  let t :=
    match sign with
    | .plus => Term.add l.1 r.1
    | .minus => .sub l.1 r.1
    | .times => .mul l.1 r.1
    | .over => .div l.1 r.1
    | .power => .pow l.1 r.1
  (t, l.2 && r.2)

def knownNames : List String := ["sin", "cos", "tan", "sympy", "mech"]

mutual

def resolve (o : Ode) : Formula → Except Error Resolved
  | .number t => .ok (.number (numberValue t), true)
  | .name s =>
    match s with
    | "True" => .ok (.number 1.0, true)
    | "False" => .ok (.number 0.0, true)
    | "None" => .error .wrongShape
    | s =>
      match o.quantityOf? s with
      | some q => .ok (.quantity q, false)
      | none =>
        if knownNames.contains s then .error .wrongShape
        else .error .undefinedName
  | .signed sign e => do
    let (t, plain) ← resolve o e
    return (if sign = .minus then .sub .zero t else t, plain)
  | .binary sign l r => do
    let l ← resolve o l
    let r ← resolve o r
    return combine sign l r
  | .call f es => do
    let isQuantity := (o.quantityOf? f).isSome
    if !isQuantity && !knownNames.contains f then
      throw .undefinedName
    let es ← resolveAll o es
    match isQuantity, elementaryFunction? f, es with
    | false, some f, [e] => return (.elementary f e.1, false)
    | _, _, _ => throw .wrongShape
  | .diff e => do
    let (t, plain) ← resolve o e
    if plain then throw .notApplicable
    match t.timeDerivative with
    | some d => return (d, false)
    | none => throw .outOfRange

def resolveAll (o : Ode) : List Formula → Except Error (List Resolved)
  | [] => .ok []
  | e :: es => do
    let e ← resolve o e
    return e :: (← resolveAll o es)

end

end Ode

structure Dual where
  value : Float
  slopes : List Float

namespace Dual

def constant (directions : Nat) (x : Float) : Dual := ⟨x, List.replicate directions 0.0⟩

def add (a b : Dual) : Dual := ⟨a.value + b.value, a.slopes.zipWith (· + ·) b.slopes⟩

def sub (a b : Dual) : Dual := ⟨a.value - b.value, a.slopes.zipWith (· - ·) b.slopes⟩

def mul (a b : Dual) : Dual :=
  ⟨a.value * b.value, a.slopes.zipWith (fun x y => x * b.value + a.value * y) b.slopes⟩

def div (a b : Dual) : Dual :=
  let q := a.value / b.value
  ⟨q, a.slopes.zipWith (fun x y => (x - q * y) / b.value) b.slopes⟩

def map (f d : Float → Float) (a : Dual) : Dual :=
  let s := d a.value
  ⟨f a.value, a.slopes.map (s * ·)⟩

def pow (a b : Dual) : Dual :=
  let p := Float.pow a.value b.value
  let d := b.value * Float.pow a.value (b.value - 1.0)
  ⟨p, a.slopes.zipWith (fun x y =>
    (if x == 0.0 then 0.0 else d * x) +
      (if y == 0.0 then 0.0 else p * Float.log a.value * y)) b.slopes⟩

def isZero (a : Dual) : Bool := a.value == 0.0 && a.slopes.all (· == 0.0)

def elementary (f : ElementaryFunction) (a : Dual) : Dual :=
  match f with
  | .sin => a.map Float.sin Float.cos
  | .cos => a.map Float.cos fun x => -Float.sin x
  | .tan => a.map Float.tan fun x => 1.0 + Float.tan x * Float.tan x

end Dual

structure Affine where
  constant : Dual
  coefficients : List Dual

namespace Affine

def zipWith (f : Dual → Dual → Dual) (a b : Affine) : Affine :=
  ⟨f a.constant b.constant, a.coefficients.zipWith f b.coefficients⟩

def isConstant (a : Affine) : Bool := a.coefficients.all Dual.isZero

def scale (d : Dual) (a : Affine) : Affine :=
  ⟨d.mul a.constant, a.coefficients.map d.mul⟩

def ofDual (unknowns : Nat) (d : Dual) : Affine :=
  ⟨d, List.replicate unknowns (Dual.constant d.slopes.length 0.0)⟩

def mul (a b : Affine) : Option Affine :=
  if a.isConstant then some (b.scale a.constant)
  else if b.isConstant then some (a.scale b.constant)
  else none

def div (a b : Affine) : Option Affine :=
  if b.isConstant then
    some ⟨a.constant.div b.constant, a.coefficients.map fun c => c.div b.constant⟩
  else none

def pow (a b : Affine) : Option Affine :=
  if !b.isConstant then none
  else if a.isConstant then some (ofDual a.coefficients.length (a.constant.pow b.constant))
  else if b.constant.value == 1.0 then some a
  else none

end Affine

structure OdePoint where
  directions : Nat
  unknownRates : List String
  unknownFunctions : List String
  known : Quantity → Dual

namespace OdePoint

def unknowns (p : OdePoint) : Nat := p.unknownRates.length + p.unknownFunctions.length

def unit (p : OdePoint) (i : Nat) : Affine :=
  ⟨.constant p.directions 0.0,
    (List.range p.unknowns).map fun j => .constant p.directions (if i = j then 1.0 else 0.0)⟩

def constant (p : OdePoint) (d : Dual) : Affine := .ofDual p.unknowns d

def eval (p : OdePoint) : Term → Option Affine
  | .number x => some (p.constant (.constant p.directions x))
  | .rate n =>
    match p.unknownRates.idxOf? n with
    | some i => some (p.unit i)
    | none => none
  | .quantity (.function n) =>
    match p.unknownFunctions.idxOf? n with
    | some i => some (p.unit (p.unknownRates.length + i))
    | none => some (p.constant (p.known (.function n)))
  | .quantity q => some (p.constant (p.known q))
  | .add l r => do return (← p.eval l).zipWith .add (← p.eval r)
  | .sub l r => do return (← p.eval l).zipWith .sub (← p.eval r)
  | .mul l r => do (← p.eval l).mul (← p.eval r)
  | .div l r => do (← p.eval l).div (← p.eval r)
  | .pow l r => do (← p.eval l).pow (← p.eval r)
  | .elementary f e => do
    let a ← p.eval e
    if a.isConstant then some (p.constant (a.constant.elementary f)) else none

end OdePoint

structure LinearRow where
  coefficients : List Dual
  right : Dual

namespace LinearRow

def coefficient (r : LinearRow) (column : Nat) : Dual :=
  (r.coefficients[column]?).getD (.constant r.right.slopes.length 0.0)

def ofAffine (a : Affine) : LinearRow :=
  ⟨a.coefficients, (Dual.constant a.constant.slopes.length 0.0).sub a.constant⟩

def divide (r : LinearRow) (d : Dual) : LinearRow :=
  ⟨r.coefficients.map fun c => c.div d, r.right.div d⟩

def reduce (r by_ : LinearRow) (d : Dual) : LinearRow :=
  ⟨r.coefficients.zipWith (fun c e => c.sub (d.mul e)) by_.coefficients,
    r.right.sub (d.mul by_.right)⟩

def largest (r : LinearRow) : Float :=
  r.coefficients.foldl (fun m c => if m < c.value.abs then c.value.abs else m) r.right.value.abs

end LinearRow

structure Elimination where
  solved : List (Nat × LinearRow)
  open_ : List LinearRow

namespace Elimination

def choose (column : Nat) : List LinearRow → Option (LinearRow × List LinearRow)
  | [] => none
  | r :: rest =>
    match choose column rest with
    | none => some (r, [])
    | some (best, others) =>
      if (r.coefficient column).value.abs < (best.coefficient column).value.abs then
        some (best, r :: others)
      else some (r, best :: others)

def pivot (e : Elimination) (column : Nat) (row : LinearRow) (others : List LinearRow) :
    Elimination :=
  let row := row.divide (row.coefficient column)
  let clear := fun (r : LinearRow) => r.reduce row (r.coefficient column)
  { solved := e.solved.map (fun s => (s.1, clear s.2)) ++ [(column, row)]
    open_ := others.map clear }

def tolerance : Float := 1.0e-9

def tryColumn (e : Elimination) (column : Nat) : Elimination :=
  match choose column e.open_ with
  | none => e
  | some (row, others) =>
    if (row.coefficient column).value.abs ≤ tolerance * row.largest then e
    else e.pivot column row others

def forceColumn (e : Elimination) (column : Nat) : Elimination :=
  match choose column e.open_ with
  | none => e
  | some (row, others) => e.pivot column row others

def isConsistent (e : Elimination) : Bool :=
  e.open_.all fun r => r.right.value.abs ≤ tolerance

end Elimination

namespace Ode

def unknownFunctions (o : Ode) (withOutputs : Bool) : List String :=
  (o.unknowns ++ if withOutputs then o.outputs else []).map shownName

def unknownRates (o : Ode) : List String := o.states.map shownName

def quantities (o : Ode) : List Quantity :=
  (o.states ++ o.unknowns ++ o.inputs ++ o.outputs).map (fun n => .function (shownName n)) ++
    (o.constants ++ o.parameters).map fun n => .symbol (shownName n)

def genericPoint (o : Ode) (withOutputs : Bool) : OdePoint where
  directions := 0
  unknownRates := o.unknownRates
  unknownFunctions := o.unknownFunctions withOutputs
  known q :=
    let i := (o.quantities.idxOf q).toFloat
    .constant 0 (0.7310585 + Float.sin (1.0 + 2.3 * i) * 0.3141592 + 0.0271828 * i)

structure Plan where
  terms : List Term
  withOutputs : Bool
  columns : Option (List Nat)

def columnsAt (p : OdePoint) (terms : List Term) : Option (Except Error (List Nat)) := do
  let affine ← terms.mapM p.eval
  let start : Elimination := ⟨[], affine.map LinearRow.ofAffine⟩
  let done := (List.range p.unknowns).foldl Elimination.tryColumn start
  return if done.isConsistent && !done.solved.isEmpty then .ok (done.solved.map Prod.fst)
    else .error .outOfRange

def plan (o : Ode) : Except Error Plan := do
  let terms ← resolveAll o o.equations
  let terms := terms.map Prod.fst
  if o.states.length + o.unknowns.length ≠ terms.length then
    throw (.unbalanced o.states.length o.unknowns.length terms.length)
  let functions := o.unknownFunctions true
  unless (decide functions.Nodup && decide o.unknownRates.Nodup) do throw .duplicateUnknowns
  if terms.isEmpty then throw .outOfRange
  match columnsAt (o.genericPoint true) terms with
  | some columns => return ⟨terms, true, some (← columns)⟩
  | none =>
    match columnsAt (o.genericPoint false) terms with
    | some columns => return ⟨terms, false, some (← columns)⟩
    | none => return ⟨terms, false, none⟩

def plainValue (o : Ode) (e : Formula) : Except Error Float := do
  let (t, _) ← o.resolve e
  let p : OdePoint := ⟨0, [], [], fun _ => .constant 0 0.0⟩
  match p.eval t with
  | some a => return a.constant.value
  | none => throw .wrongShape

def plainValues (o : Ode) (values : List (String × Formula)) :
    Except Error (List (String × Float)) :=
  values.mapM fun v => do return (shownName v.1, ← o.plainValue v.2)

structure Ready where
  ode : Ode
  plan : Plan
  initialStates : List (String × Float)
  constantValues : List (String × Float)
  parameterValues : List (String × Float)
  initialInputs : List (String × Float)

def ready (o : Ode) : Except Error Ready := do
  let states ← o.plainValues o.initialStates
  let constants ← o.plainValues o.constantValues
  let parameters ← o.plainValues o.parameterValues
  let inputs ← o.plainValues o.initialInputs
  return ⟨o, ← o.plan, states, constants, parameters, inputs⟩

namespace Ready

def slopesOf (r : Ready) (name : String) : List Float :=
  (r.ode.states ++ r.ode.inputs).map fun n => if shownName n = name then 1.0 else 0.0

def pointAt (r : Ready) (withSlopes : Bool) (x u : List Float) : OdePoint :=
  let directions := if withSlopes then r.ode.states.length + r.ode.inputs.length else 0
  let inputs := (r.ode.inputs.map shownName).zip u
  let states := (r.ode.states.map shownName).zip x
  { directions := directions
    unknownRates := r.ode.unknownRates
    unknownFunctions := r.ode.unknownFunctions r.plan.withOutputs
    known := fun q =>
      match q with
      | .function n =>
        let value := ((inputs.lookup n).or (states.lookup n)).getD 0.0
        ⟨value, if withSlopes then r.slopesOf n else []⟩
      | .symbol n =>
        .constant directions
          (((r.constantValues.lookup n).or (r.parameterValues.lookup n)).getD 0.0) }

def solveAt (r : Ready) (p : OdePoint) (columns : List Nat) : Option Elimination := do
  let affine ← r.plan.terms.mapM p.eval
  return columns.foldl Elimination.forceColumn ⟨[], affine.map LinearRow.ofAffine⟩

def freeValue (r : Ready) (p : OdePoint) (column : Nat) : Option Dual :=
  let fixed := r.ode.states.length + r.ode.unknowns.length
  if column < fixed then none
  else (r.ode.outputs[column - fixed]?).map fun n => p.known (.function (shownName n))

def unknownValue (r : Ready) (p : OdePoint) (e : Elimination) (column : Nat) :
    Except Error Dual :=
  match e.solved.lookup column with
  | none =>
    match r.freeValue p column with
    | some d => .ok d
    | none => .error .wrongShape
  | some row =>
    (List.range p.unknowns).foldlM (fun acc j =>
      let c := row.coefficient j
      if (e.solved.lookup j).isSome || c.isZero then .ok acc
      else
        match r.freeValue p j with
        | some d => .ok (acc.sub (c.mul d))
        | none => .error .wrongShape) row.right

def evaluate (r : Ready) (withSlopes : Bool) (x u : List Float) :
    Except Error (List Dual × List Dual) := do
  let p := r.pointAt withSlopes x u
  match r.plan.columns with
  | none =>
    if r.ode.states.isEmpty && r.ode.outputs.isEmpty then return ([], [])
    else throw .wrongShape
  | some columns =>
    match r.solveAt p columns with
    | none => throw .wrongShape
    | some e =>
      let f ← (List.range r.ode.states.length).mapM (r.unknownValue p e)
      let fixed := r.ode.states.length + r.ode.unknowns.length
      let g ← (List.range r.ode.outputs.length).mapM fun i =>
        if r.plan.withOutputs then r.unknownValue p e (fixed + i)
        else
          match r.freeValue p (fixed + i) with
          | some d => .ok d
          | none => .error .wrongShape
      return (f, g)

def startStates (r : Ready) : List Float := r.initialStates.map Prod.snd

def startInputs (r : Ready) : List Float := r.initialInputs.map Prod.snd

end Ready

abbrev Shape := Nat × Nat

def shapes (o : Ode) (zeros : Bool) : List Shape :=
  let nx := o.states.length
  let nu := o.inputs.length
  let ny := o.outputs.length
  [(nx, nx), (nx, nu), (ny, nx), (ny, nu)].map fun s =>
    if zeros || (0 < s.1 && 0 < s.2) then s else (0, 0)

structure Linearization where
  a : List (List Float)
  b : List (List Float)
  c : List (List Float)
  d : List (List Float)

def Ready.linearize (r : Ready) (x u : List Float) : Except Error Linearization := do
  let nx := r.ode.states.length
  if x.length < nx || u.length < r.ode.inputs.length then throw .outOfRange
  let (f, g) ← r.evaluate true x u
  let left := fun (rows : List Dual) =>
    if nx = 0 then [] else rows.map fun d => d.slopes.take nx
  let right := fun (rows : List Dual) =>
    if r.ode.inputs.isEmpty then [] else rows.map fun d => d.slopes.drop nx
  return ⟨left f, right f, left g, right g⟩

def ofClass (lib : Library) (id : ClassId) : Except Error Ode := do
  let c := lib.classOf id
  let equations ← Script.classEquations (Script.context lib) c
  let declared := Script.declarations (c.symbols.values.map lib.symbolOf)
  match ofDeclarations declared equations with
  | some o => if Formula.isIdentifier (c.name.getD "") then return o else throw .malformedProgram
  | none => throw .malformedProgram

def ofModel (lib : Library) (root : ClassId) (name : String) : Except Error Ode := do
  let _ ← Script.ofModel lib root
  let systems ← (lib.classOf root).classes.entries.mapM fun e => do
    return ((lib.classOf e.2).name, ← ofClass lib e.2)
  match systems.lookup (some name) with
  | some o => return o
  | none => throw (.unknownName name)

end Ode

def Build.ode (root : ClassId) (r : ComponentRef) : Build Ode := do
  let flat ← flatten (← copyClass root) r
  liftExcept (Ode.ofModel (← get) flat ((r.names.getLast?).getD ""))

end Modelica
