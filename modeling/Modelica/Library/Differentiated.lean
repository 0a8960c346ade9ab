import Modelica.Library.Reach

set_option autoImplicit false

namespace Modelica

mutual

-- References inside a derivative, each behind those inside it. The flag says that the expression is inside one.
def Expr.derived (inside : Bool) : Expr → List ComponentRef
  | .literal _ => []
  | .ref r => r.derived inside
  | .apply (.named o) es => Expr.allDerived (inside || o = "der") es
  | .apply (.function r) es => r.derived inside ++ Expr.allDerived inside es
  | .conditional cs es => Expr.allDerived inside cs ++ Expr.allDerived inside es
  | .array es => Expr.allDerived inside es
  | .slice a b c => a.derived inside ++ b.derived inside ++ c.derived inside
  | .tuple es => Expr.allDerived inside es
  | .component _ => []
  | .modification _ => []

def Expr.allDerived (inside : Bool) : List Expr → List ComponentRef
  | [] => []
  | e :: es => e.derived inside ++ Expr.allDerived inside es

def ComponentRef.derived (inside : Bool) : ComponentRef → List ComponentRef
  | .mk name groups child =>
    Expr.groupsDerived inside groups ++ ComponentRef.childDerived inside child ++
      if inside then [.mk name groups child] else []

def ComponentRef.childDerived (inside : Bool) : Option ComponentRef → List ComponentRef
  | none => []
  | some r => r.derived inside

def Expr.groupsDerived (inside : Bool) : List (Option (List Expr)) → List ComponentRef
  | [] => []
  | none :: rest => Expr.groupsDerived inside rest
  | some es :: rest => Expr.allDerived inside es ++ Expr.groupsDerived inside rest

end

namespace Library

def derived (lib : Library) : Nat → Entry → List ComponentRef
  | 0, _ => []
  | fuel + 1, e =>
    (lib.pieces e).flatMap fun
      | .expr x => x.derived false ++
          (x.parts.filterMap Part.entry?).flatMap (lib.derived fuel)
      | .entry e => lib.derived fuel e

end Library

namespace Build

def markState (node : ClassId) (r : ComponentRef) : Build Unit := do
  if r.child.isSome then throw (.broken "")
  match (← classOf node).symbols.find? r.name with
  | none => pure ()
  | some s =>
    updateSymbol s fun d =>
      if d.prefixes.contains "state" then d else { d with prefixes := d.prefixes ++ ["state"] }

def annotateStates (node : ClassId) : Build Unit := do
  let lib ← get
  for r in lib.derived (lib.size + 1) (.class_ node) do
    markState node r

end Build

end Modelica
