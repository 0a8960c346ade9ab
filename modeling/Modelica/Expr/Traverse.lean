import Modelica.Equation

set_option autoImplicit false

namespace Modelica

-- What to do with the components and modifications that stand inside an expression, and with each function that
-- is called by reference, once its arguments are done.
structure Renaming (m : Type → Type) where
  symbol : SymbolId → m SymbolId
  modification : ModificationId → m ModificationId
  call : ComponentRef → m Operator

variable {m : Type → Type} [Monad m]

mutual

def Expr.rename (f : Renaming m) : Expr → m Expr
  | .literal v => pure (.literal v)
  | .ref r => do return .ref (← r.rename f)
  | .apply (.named o) es => do return .apply (.named o) (← Expr.renameAll f es)
  | .apply (.function r) es => do
    let r ← r.rename f
    let es ← Expr.renameAll f es
    return .apply (← f.call r) es
  | .conditional cs es => do
    let cs ← Expr.renameAll f cs
    return .conditional cs (← Expr.renameAll f es)
  | .array es => do return .array (← Expr.renameAll f es)
  | .slice a b c => do
    let a ← a.rename f
    let b ← b.rename f
    return .slice a b (← c.rename f)
  | .tuple es => do return .tuple (← Expr.renameAll f es)
  | .component id => do return .component (← f.symbol id)
  | .modification id => do return .modification (← f.modification id)

def Expr.renameAll (f : Renaming m) : List Expr → m (List Expr)
  | [] => pure []
  | e :: es => do
    let e ← e.rename f
    return e :: (← Expr.renameAll f es)

def ComponentRef.rename (f : Renaming m) : ComponentRef → m ComponentRef
  | .mk name groups none => do return .mk name (← Expr.renameGroups f groups) none
  | .mk name groups (some c) => do
    let groups ← Expr.renameGroups f groups
    return .mk name groups (some (← c.rename f))

def Expr.renameGroups (f : Renaming m) :
    List (Option (List Expr)) → m (List (Option (List Expr)))
  | [] => pure []
  | none :: rest => do return none :: (← Expr.renameGroups f rest)
  | some es :: rest => do
    let es ← Expr.renameAll f es
    return some es :: (← Expr.renameGroups f rest)

end

-- What to do with each expression and each reference that stands for itself.
structure Mapping (m : Type → Type) where
  expr : Expr → m Expr
  ref : ComponentRef → m ComponentRef

def Renaming.mapping (f : Renaming m) : Mapping m :=
  ⟨Expr.rename f, ComponentRef.rename f⟩

namespace Mapping

variable (f : Mapping m)

def exprs : List Expr → m (List Expr)
  | [] => pure []
  | e :: es => do
    let e ← f.expr e
    return e :: (← exprs es)

def rows : List (List Expr) → m (List (List Expr))
  | [] => pure []
  | es :: rest => do
    let es ← f.exprs es
    return es :: (← rows rest)

def indices : List ForIndex → m (List ForIndex)
  | [] => pure []
  | i :: rest => do
    let domain ← f.expr i.domain
    return ⟨i.name, domain⟩ :: (← indices rest)

mutual

def equation : Equation → m Equation
  | .simple l r c => do
    let l ← f.expr l
    return .simple l (← f.expr r) c
  | .ifThen cs bs c => do
    let cs ← f.exprs cs
    return .ifThen cs (← equationBlocks bs) c
  | .whenThen cs bs c => do
    let cs ← f.exprs cs
    return .whenThen cs (← equationBlocks bs) c
  | .forLoop is es c => do
    let is ← f.indices is
    return .forLoop is (← equations es) c
  | .connect l r c s => do
    let l ← f.ref l
    return .connect l (← f.ref r) c s
  | .call n es c => do return .call n (← f.exprs es) c

def equations : List Equation → m (List Equation)
  | [] => pure []
  | e :: es => do
    let e ← equation e
    return e :: (← equations es)

def equationBlocks : List (List Equation) → m (List (List Equation))
  | [] => pure []
  | b :: bs => do
    let b ← equations b
    return b :: (← equationBlocks bs)

end

mutual

def statement : Statement → m Statement
  | .assign ls r c => do
    let ls ← f.exprs ls
    return .assign ls (← f.expr r) c
  | .ifThen cs bs c => do
    let cs ← f.exprs cs
    return .ifThen cs (← statementBlocks bs) c
  | .forLoop is ss c => do
    let is ← f.indices is
    return .forLoop is (← statements ss) c

def statements : List Statement → m (List Statement)
  | [] => pure []
  | s :: ss => do
    let s ← statement s
    return s :: (← statements ss)

def statementBlocks : List (List Statement) → m (List (List Statement))
  | [] => pure []
  | b :: bs => do
    let b ← statements b
    return b :: (← statementBlocks bs)

end

def constraint (c : Constraint) : m Constraint := do
  let l ← f.expr c.left
  let r ← f.expr c.right
  return { c with left := l, right := r }

def constraints : List Constraint → m (List Constraint)
  | [] => pure []
  | c :: rest => do
    let c ← f.constraint c
    return c :: (← constraints rest)

end Mapping

end Modelica
