import Modelica.Library.State
import Modelica.Source.Parser

set_option autoImplicit false

-- Entering the definitions of a text into a library. The text is gone through once, from front to back, and the
-- first construct that cannot be entered is the one reported.

namespace Modelica.Define

open Source (RefPart Subscript)

def longestInteger : Nat := 4300

def number (text : String) : Except Error Expr :=
  let cs := text.toList
  if cs.all Char.isDigit && cs.length ≤ longestInteger then
    .ok (.literal (.integer (Decimal.digitsValue cs)))
  else
    match Decimal.read? cs with
    | some x => .ok (.literal (.real x))
    | none => .error (.badNumber text)

def needExpr : Option Expr → Except Error Expr
  | some e => .ok e
  | none => .error .notApplicable

def needExprs : List (Option Expr) → Except Error (List Expr)
  | [] => .ok []
  | e :: es => do
    let e ← needExpr e
    return e :: (← needExprs es)

def needPrimary : Option Expr → Except Error Expr
  | some e => .ok e
  | none => .error .unsupported

def collapse : List Expr → Expr
  | [e] => e
  | es => .tuple es

mutual

def expr : Source.Expr → Except Error Expr
  | .neg e => do return .apply (.named "-") [← expr e]
  | .not_ e => do return .apply (.named "not") [← expr e]
  | .binary sign l r =>
    if sign = .caret || sign = .dotCaret then do
      let l ← primary l
      let r ← primary r
      return .apply (.named sign.spelling) [← needPrimary l, ← needPrimary r]
    else do
      let l ← expr l
      let r ← expr r
      return .apply (.named sign.spelling) [l, r]
  | .range first second third => do
    let start ← expr first
    let stop ← expr second
    let step ←
      match third with
      | some e => expr e
      | none => pure (.integer 1)
    return .slice start stop step
  | .conditional bs otherwise => do
    let (conditions, values) ← branches bs
    return .conditional conditions (values ++ [← expr otherwise])
  | .number text => number text
  | .string text => .ok (.literal (.string (Text.inner text)))
  | .bool b => .ok (.literal (.bool b))
  | .ref parts => do return .ref (← reference parts)
  | .call function arguments => do
    let f ← reference function
    let operands ← operandsOf arguments
    return .apply (.function f) operands
  | .der arguments => do return .apply (.named "der") (← operandsOf arguments)
  | .initial arguments => do
    let _ ← argumentsOf arguments
    .error .unsupported
  | .paren items => do return collapse (← exprs items)
  | .matrix rows => do
    exprRows rows
    .error .unsupported
  | .braces arguments => do return .array (← operandsOf arguments)
  | .end_ => .error .unsupported

def primary : Source.Expr → Except Error (Option Expr)
  | .initial arguments => do
    let _ ← argumentsOf arguments
    return none
  | .matrix rows => do
    exprRows rows
    return none
  | .end_ => .ok none
  | .number text => do return some (← number text)
  | .string text => .ok (some (.literal (.string (Text.inner text))))
  | .bool b => .ok (some (.literal (.bool b)))
  | .ref parts => do return some (.ref (← reference parts))
  | .call function arguments => do
    let f ← reference function
    let operands ← operandsOf arguments
    return some (.apply (.function f) operands)
  | .der arguments => do return some (.apply (.named "der") (← operandsOf arguments))
  | .paren items => do return some (collapse (← exprs items))
  | .braces arguments => do return some (.array (← operandsOf arguments))
  | .neg e => do return some (.apply (.named "-") [← expr e])
  | .not_ e => do return some (.apply (.named "not") [← expr e])
  | .binary sign l r => do
    let l ← expr l
    let r ← expr r
    return some (.apply (.named sign.spelling) [l, r])
  | .range first second third => do
    let start ← expr first
    let stop ← expr second
    let step ←
      match third with
      | some e => expr e
      | none => pure (.integer 1)
    return some (.slice start stop step)
  | .conditional bs otherwise => do
    let (conditions, values) ← branches bs
    return some (.conditional conditions (values ++ [← expr otherwise]))

def exprs : List Source.Expr → Except Error (List Expr)
  | [] => .ok []
  | e :: es => do
    let e ← expr e
    return e :: (← exprs es)

def exprRows : List (List Source.Expr) → Except Error Unit
  | [] => .ok ()
  | es :: rows => do
    let _ ← exprs es
    exprRows rows

def branches : List (Source.Expr × Source.Expr) → Except Error (List Expr × List Expr)
  | [] => .ok ([], [])
  | (c, e) :: rest => do
    let c ← expr c
    let e ← expr e
    let (cs, es) ← branches rest
    return (c :: cs, e :: es)

def reference : List RefPart → Except Error ComponentRef
  | [] => .ok default
  | [p] => do
    let (name, subscripts) ← part p
    return .mk name [subscripts] none
  | p :: ps => do
    let (name, subscripts) ← part p
    return .mk name [subscripts] (some (← reference ps))

def part : RefPart → Except Error (String × Option (List Expr))
  | .mk name none => .ok (name, none)
  | .mk name (some items) => do return (name, some (← subscripts items))

def subscripts : List Subscript → Except Error (List Expr)
  | [] => .ok []
  | .all :: rest => do return .slice .absent .absent (.integer 1) :: (← subscripts rest)
  | .expr e :: rest => do
    let e ← expr e
    return e :: (← subscripts rest)

def operandsOf : Source.Arguments → Except Error (List Expr)
  | .empty => .error .notApplicable
  | .positional items => do needExprs (← argumentItems items)
  | .named items => do
    namedArguments items
    return []

def argumentsOf : Source.Arguments → Except Error (List (Option Expr))
  | .empty => .ok []
  | .positional items => argumentItems items
  | .named items => do
    namedArguments items
    return []

def argumentItems : List Source.ArgumentItem → Except Error (List (Option Expr))
  | [] => .ok []
  | .argument a :: rest => do
    let a ← argument a
    return a :: (← argumentItems rest)
  | .iterators indices :: rest => do
    let _ ← forIndices indices
    argumentItems rest

def argument : Source.Argument → Except Error (Option Expr)
  | .function _ named => do
    namedArguments named
    return none
  | .expr e => do return some (← expr e)

def namedArguments : List (String × Source.Argument) → Except Error Unit
  | [] => .ok ()
  | (_, a) :: rest => do
    let _ ← argument a
    namedArguments rest

def forIndices : List Source.ForIndex → Except Error (List ForIndex)
  | [] => .ok []
  | .mk name domain :: rest => do
    let domain ←
      match domain with
      | some e => expr e
      | none => .error .missingPart
    return ⟨name, domain⟩ :: (← forIndices rest)

end

inductive Target where
  | none
  -- A component that is not part of the library: it takes what no declaration waits for.
  | scratch
  | symbol (id : SymbolId)

structure Clause where
  prefixes : List String
  type : ComponentRef
  dimensions : List (List Expr)
  symbols : List SymbolId

-- What reading keeps in mind. A clause inside a modification stays the current one when reading returns to the
-- clause around it.
structure Reading where
  count : Nat := 0
  target : Target := .none
  clauses : Array Clause := #[]
  classes : List ClassId := []
  inExtends : Bool := false

abbrev Read (α : Type) := StateT Reading (EStateM Error Library) α

def lift {α : Type} (x : Build α) : Read α := StateT.lift x

def ofExcept {α : Type} : Except Error α → Read α
  | .ok a => pure a
  | .error e => throw e

def currentClass : Read ClassId := do
  return ((← get).classes.head?).getD ⟨0⟩

def currentClause : Read Clause := do
  return ((← get).clauses.back?).getD ⟨[], default, [[.absent]], []⟩

def prefixWords : List Terminal → List String
  | [] => []
  | ts => [String.join (ts.map Terminal.spelling)]

def enterClause (prefixes : List Terminal) (type : List String) : Read Nat := do
  let type :=
    match type with
    | [] => default
    | first :: rest => ComponentRef.ofNames first rest
  modifyGet fun r =>
    (r.clauses.size,
      { r with clauses := r.clauses.push ⟨prefixWords prefixes, type, [[.absent]], []⟩ })

def enterSymbol : Read SymbolId := do
  let count := (← get).count
  let id ← lift (Build.addSymbol { order := count })
  modify fun r =>
    { r with
      count := count + 1
      target := .symbol id
      clauses := r.clauses.modify (r.clauses.size - 1) fun c =>
        { c with symbols := c.symbols ++ [id] } }
  return id

def enterDeclaration (id : SymbolId) (name : String) : Read Unit := do
  let clause ← currentClause
  lift (Build.updateSymbol id fun s =>
    { s with
      name := name
      dimensions := clause.dimensions
      prefixes := clause.prefixes
      type := .named clause.type })
  unless (← get).inExtends do
    let c ← currentClass
    if (← lift (Build.classOf c)).symbols.contains name then throw (.duplicateSymbol name)
    lift (Build.updateClass c fun d => { d with symbols := d.symbols.insert name id })

def exitDeclaration (own : Option (List Expr)) (changes : Option (List Expr)) : Read Unit := do
  match (← get).target with
  | .none => if own.isSome || changes.isSome then throw .notApplicable
  | .scratch => pure ()
  | .symbol id =>
    if let some dims := own then
      lift (Build.updateSymbol id fun s => { s with dimensions := [dims] })
    for change in changes.getD [] do
      match change with
      | .modification m => lift (Build.updateSymbol id fun s => { s with modification := some m })
      | value =>
        let argument ←
          lift (Build.addArgument (.element (.simple "value") [value]) none false)
        match (← lift (Build.symbolOf id)).modification with
        | none =>
          let m ← lift (Build.addModification [argument])
          lift (Build.updateSymbol id fun s => { s with modification := some m })
        | some m => lift (Build.updateModification m (· ++ [argument]))

def enterElementModification : Read Unit :=
  modify fun r =>
    match r.target with
    | .none => { r with count := r.count + 1, target := .scratch }
    | _ => r

def exitSymbol (id : SymbolId) (comment : String) : Read Unit := do
  lift (Build.updateSymbol id fun s => { s with comment := comment })
  modify fun r => { r with target := .none }

mutual

def modification : Source.Modification → Read (List Expr)
  | .nested arguments value => do
    let m ← classModification arguments
    match value with
    | none => return [.modification m]
    | some e => return [.modification m, ← ofExcept (expr e)]
  | .assign e => do return [← ofExcept (expr e)]

def classModification (arguments : List Source.ModificationArgument) : Read ModificationId := do
  let ids ← modificationArguments arguments
  lift (Build.addModification ids)

def modificationArguments : List Source.ModificationArgument → Read (List ArgumentId)
  | [] => pure []
  | a :: rest => do
    let a ← modificationArgument a
    return a :: (← modificationArguments rest)

def modificationArgument : Source.ModificationArgument → Read ArgumentId
  | .modify component change => do
    enterElementModification
    let component ← ofExcept (reference component)
    let changes ←
      match change with
      | none => pure []
      | some m => modification m
    lift (Build.addArgument (.element component changes) none false)
  | .replaceable element constrainedBy => do
    let value ← redeclared element
    match constrainedBy with
    | none => pure ()
    | some arguments =>
      let _ ← modificationArguments arguments
    lift (Build.addArgument value none false)
  | .redeclare element => do
    let value ← redeclared element
    lift (Build.addArgument value none true)
  | .redeclareReplaceable element constrainedBy => do
    let _ ← redeclared element
    match constrainedBy with
    | none => pure ()
    | some arguments =>
      let _ ← modificationArguments arguments
    throw .missingPart

def redeclared : Source.Redeclared → Read ArgumentValue
  | .shortClass type name base dims change note => do
    let base ← ofExcept (reference base)
    match dims with
    | none => pure ()
    | some items =>
      let _ ← ofExcept (subscripts items)
    match change with
    | none => pure ()
    | some arguments =>
      let _ ← modificationArguments arguments
    let _ ← comment note
    return .shortClass ⟨name, type, base⟩
  | .shortEnumeration _ _ literals note => do
    comments literals
    let _ ← comment note
    throw .missingPart
  | .component prefixes type name dims change note => do
    let clause ← enterClause prefixes type
    let id ← enterSymbol
    enterDeclaration id name
    let own ←
      match dims with
      | none => pure none
      | some items => some <$> ofExcept (subscripts items)
    let changes ←
      match change with
      | none => pure none
      | some m => some <$> modification m
    exitDeclaration own changes
    let text ← comment note
    exitSymbol id text
    match (← get).clauses[clause]? with
    | some d => return .clause ⟨d.prefixes, d.type, d.dimensions, d.symbols⟩
    | none => throw .missingPart

def comment : Source.Comment → Read String
  | .mk text annotated => do
    match annotated with
    | none => pure ()
    | some arguments =>
      let _ ← modificationArguments arguments
    return Text.inner text

def comments : List Source.Comment → Read Unit
  | [] => pure ()
  | c :: rest => do
    let _ ← comment c
    comments rest

end

def optionalModification (arguments : Option Source.ClassModification) :
    Read (Option ModificationId) :=
  match arguments with
  | none => pure none
  | some a => some <$> classModification a

mutual

def equations : List Source.Equation → Read (List Equation)
  | [] => pure []
  | e :: rest => do
    let e ← equation e
    return e :: (← equations rest)

def equation : Source.Equation → Read Equation
  | .mk body note => do
    match body with
    | .simple l r =>
      let l ← ofExcept (expr l)
      let r ← ofExcept (expr r)
      return .simple l r (← comment note)
    | .ifThen bs otherwise =>
      let (conditions, blocks) ← equationBranches bs
      let last ←
        match otherwise with
        | none => pure []
        | some es => do pure [← equations es]
      return .ifThen conditions (blocks ++ last) (← comment note)
    | .whenThen bs =>
      let (conditions, blocks) ← equationBranches bs
      return .whenThen conditions blocks (← comment note)
    | .forLoop indices es =>
      let indices ← ofExcept (forIndices indices)
      let es ← equations es
      return .forLoop indices es (← comment note)
    | .connect l r =>
      let l ← ofExcept (reference l)
      let r ← ofExcept (reference r)
      return .connect l r (← comment note) none
    | .call name arguments =>
      let operands ← ofExcept (operandsOf arguments)
      return .call name operands (← comment note)

def equationBranches : List Source.EquationBranch → Read (List Expr × List (List Equation))
  | [] => pure ([], [])
  | .mk condition body :: rest => do
    let c ← ofExcept (expr condition)
    let b ← equations body
    let (cs, bs) ← equationBranches rest
    return (c :: cs, b :: bs)

end

def references : List Source.Reference → Except Error (List Expr)
  | [] => .ok []
  | r :: rest => do
    let r ← reference r
    return .ref r :: (← references rest)

mutual

def statements : List Source.Statement → Read (List Statement)
  | [] => pure []
  | s :: rest => do
    let s ← statement s
    return s :: (← statements rest)

def statement : Source.Statement → Read Statement
  | .mk body note => do
    match body with
    | .assign l r =>
      let l ← ofExcept (reference l)
      let r ← ofExcept (expr r)
      return .assign [.ref l] r (← comment note)
    | .call function arguments =>
      let _ ← ofExcept (reference function)
      let _ ← ofExcept (argumentsOf arguments)
      throw .missingPart
    | .assignCall ls function arguments =>
      let ls ← ofExcept (references ls)
      let f ← ofExcept (reference function)
      let operands ← ofExcept (operandsOf arguments)
      return .assign ls (.apply (.function f) operands) (← comment note)
    | .break_ | .return_ =>
      let _ ← comment note
      throw .unsupported
    | .ifThen bs otherwise =>
      let (conditions, blocks) ← statementBranches bs
      let last ←
        match otherwise with
        | none => pure []
        | some ss => do pure [← statements ss]
      return .ifThen conditions (blocks ++ last) (← comment note)
    | .forLoop indices ss =>
      let indices ← ofExcept (forIndices indices)
      let ss ← statements ss
      return .forLoop indices ss (← comment note)
    | .whileLoop condition ss =>
      let _ ← ofExcept (expr condition)
      let _ ← statements ss
      let _ ← comment note
      throw .unsupported
    | .whenThen bs =>
      let _ ← statementBranches bs
      throw .notApplicable

def statementBranches : List Source.StatementBranch → Read (List Expr × List (List Statement))
  | [] => pure ([], [])
  | .mk condition body :: rest => do
    let c ← ofExcept (expr condition)
    let b ← statements body
    let (cs, bs) ← statementBranches rest
    return (c :: cs, b :: bs)

end

def constraints : List Source.Constraint → Read (List Constraint)
  | [] => pure []
  | c :: rest => do
    let l ← ofExcept (expr c.left)
    let r ← ofExcept (expr c.right)
    let text ← comment c.comment
    return ⟨l, r, c.relation.spelling, text⟩ :: (← constraints rest)

def declaration (d : Source.Declaration) : Read Unit := do
  let id ← enterSymbol
  enterDeclaration id d.name
  let own ←
    match d.subscripts with
    | none => pure none
    | some items => some <$> ofExcept (subscripts items)
  let changes ←
    match d.modification with
    | none => pure none
    | some m => some <$> modification m
  exitDeclaration own changes
  if let some condition := d.condition then
    let _ ← ofExcept (expr condition)
  let text ← comment d.comment
  exitSymbol id text

def componentClause (clause : Source.ComponentClause) : Read (List SymbolId) := do
  let number ← enterClause clause.prefixes clause.type
  let dims ←
    match clause.subscripts with
    | none => pure none
    | some items => some <$> ofExcept (subscripts items)
  for d in clause.declarations do
    declaration d
  let c ← currentClass
  let own := ((← get).clauses[number]?).getD ⟨[], default, [[.absent]], []⟩
  let members := (← currentClause).symbols
  if let some items := dims then
    for member in members do
      let name := (← lift (Build.symbolOf member)).name
      match (← lift (Build.classOf c)).symbols.find? name with
      | none => throw (.unknownName name)
      | some s => lift (Build.updateSymbol s fun d => { d with dimensions := [items] })
  for member in members.drop 1 do
    let name := (← lift (Build.symbolOf member)).name
    match (← lift (Build.classOf c)).symbols.find? name with
    | none => throw (.unknownName name)
    | some s => lift (Build.updateSymbol s fun d => { d with type := .named own.type })
  return own.symbols

def importClause : Source.Import → Read Unit
  | .renaming name component note => do
    let r ← ofExcept (reference component)
    let _ ← comment note
    let c ← currentClass
    lift (Build.updateClass c fun d => { d with imports := d.imports ++ [⟨name, r⟩] })
  | .whole component note | .all component note => do
    let _ ← ofExcept (reference component)
    let _ ← comment note
    throw .missingPart
  | .selected component _ _ => do
    let _ ← ofExcept (reference component)
    throw .wrongShape

def constraining : Option Source.Constraining → Read Unit
  | none => pure ()
  | some c => do
    let _ ← optionalModification c.modification
    let _ ← comment c.comment

inductive Placed where
  | symbols (ids : List SymbolId)
  | extends_ (index : Nat)
  | other

def setVisibility (v : Visibility) (placed : List Placed) : Read Unit := do
  let c ← currentClass
  for p in placed do
    match p with
    | .symbols ids =>
      for id in ids do
        lift (Build.updateSymbol id fun s => { s with visibility := v })
    | .extends_ index =>
      lift (Build.updateClass c fun d =>
        { d with extends_ := d.extends_.modify index fun e => { e with visibility := v } })
    | .other => pure ()

structure Body where
  publicPart : List Placed := []
  protectedPart : List Placed := []
  initialEquations : List Equation := []
  equations : List Equation := []
  initialStatements : List Statement := []
  statements : List Statement := []
  constraints : List Constraint := []
  initialConstraint : Bool := false

def externalClause : Option Source.External → Read Unit
  | none => pure ()
  | some e => do
    if let some call := e.call then
      if let some r := call.result then
        let _ ← ofExcept (reference r)
      let _ ← ofExcept (exprs call.arguments)
    let _ ← optionalModification e.annotated

mutual

def classDefinition : Source.ClassDefinition → Read ClassId
  | .mk encapsulated isPartial type specifier => do
    let id ← lift (Build.addClass fun id =>
      { encapsulated := encapsulated, isPartial := isPartial, type := type, origin := id })
    modify fun r => { r with classes := id :: r.classes }
    match specifier with
    | .long name change note body =>
      let m ← optionalModification change
      composition body
      lift (Build.updateClass id fun d =>
        { d with
          name := some name
          comment := Text.inner note
          optimization := if d.type == "optimization" then m else none })
    | .base name component change note =>
      let r ← ofExcept (reference component)
      let m ← optionalModification change
      let text ← comment note
      let m ←
        match m with
        | some m => pure m
        | none => lift (Build.addModification [])
      lift (Build.updateClass id fun d =>
        { d with
          name := some name
          comment := text
          extends_ := d.extends_ ++ [{ component := r, modification := m }] })
    | .enumeration literals note =>
      comments literals
      let _ ← comment note
    | .derivative note =>
      let _ ← comment note
    | .extending change body =>
      let _ ← optionalModification change
      composition body
    modify fun r => { r with classes := r.classes.tail }
    let outer ← currentClass
    let name := (← lift (Build.classOf id)).name
    lift (Build.updateClass outer fun d => { d with classes := d.classes.insert name id })
    return id

def composition : Source.Composition → Read Unit
  | .mk leading parts external annotated => do
    let first ← elements leading
    let body ← sections {} parts
    externalClause external
    let note ← optionalModification annotated
    setVisibility .private_ first
    setVisibility .public_ body.publicPart
    setVisibility .protected_ body.protectedPart
    let c ← currentClass
    lift (Build.updateClass c fun d =>
      { d with
        equations := d.equations ++ body.equations
        initialEquations := d.initialEquations ++ body.initialEquations })
    if body.initialConstraint then throw .initialConstraint
    lift (Build.updateClass c fun d =>
      { d with
        constraints := d.constraints ++ body.constraints
        statements := d.statements ++ body.statements
        initialStatements := d.initialStatements ++ body.initialStatements
        annotated := note })

def sections (body : Body) : List Source.Section → Read Body
  | [] => pure body
  | .visible isPublic es :: rest => do
    let placed ← elements es
    if isPublic then sections { body with publicPart := placed } rest
    else sections { body with protectedPart := placed } rest
  | .equations initial es :: rest => do
    let es ← equations es
    if initial then
      sections { body with initialEquations := body.initialEquations ++ es } rest
    else sections { body with equations := body.equations ++ es } rest
  | .statements initial ss :: rest => do
    let ss ← statements ss
    if initial then
      sections { body with initialStatements := body.initialStatements ++ ss } rest
    else sections { body with statements := body.statements ++ ss } rest
  | .constraints initial cs :: rest => do
    let cs ← constraints cs
    if initial then sections { body with initialConstraint := true } rest
    else sections { body with constraints := body.constraints ++ cs } rest

def elements : List Source.Element → Read (List Placed)
  | [] => pure []
  | e :: rest => do
    let e ← element e
    return e :: (← elements rest)

def element : Source.Element → Read Placed
  | .import_ clause => do
    importClause clause
    return .other
  | .extends_ component change annotated => do
    modify fun r => { r with inExtends := true }
    let r ← ofExcept (reference component)
    let m ← optionalModification change
    let _ ← optionalModification annotated
    let m ←
      match m with
      | some m => pure m
      | none => lift (Build.addModification [])
    let c ← currentClass
    let index := (← lift (Build.classOf c)).extends_.length
    lift (Build.updateClass c fun d =>
      { d with extends_ := d.extends_ ++ [{ component := r, modification := m }] })
    modify fun r => { r with inExtends := false }
    return .extends_ index
  | .class_ definition constrainedBy => do
    let _ ← classDefinition definition
    constraining constrainedBy
    return .other
  | .component clause constrainedBy => do
    let own ← componentClause clause
    constraining constrainedBy
    return .symbols own

end

def linkParents : Nat → ClassId → Build Unit
  | 0, _ => throw .unbounded
  | fuel + 1, id => do
    for c in (← Build.classOf id).classes.values do
      Build.updateClass c fun d => { d with parent := some id }
      linkParents fuel c

def storedClasses : List Source.StoredClass →
    OrderedMap (Option String) ClassId → Read (OrderedMap (Option String) ClassId)
  | [], found => pure found
  | s :: rest, found => do
    let id ← classDefinition s.definition
    lift (Build.updateClass id fun d => { d with final := s.final })
    let name := (← lift (Build.classOf id)).name
    storedClasses rest (found.insert name id)

-- The packages that a `within` clause names, from the outermost on; the innermost is returned.
def packages (outer : ClassId) : List String → Build ClassId
  | [] => pure outer
  | name :: rest => do
    let id ← Build.addClass fun id => { name := some name, type := "package", origin := id }
    Build.updateClass outer fun d => { d with classes := d.classes.insert (some name) id }
    packages id rest

def storedDefinition (definition : Source.StoredDefinition) : Build ClassId := do
  let base ← Build.addClass fun id => { origin := id }
  let ((path, found), _) ← (do
    let path ←
      match definition.within with
      | none => pure []
      | some r => do pure (← ofExcept (reference r)).names
    let found ← storedClasses definition.classes .empty
    return (path, found) : Read (List String × OrderedMap (Option String) ClassId)).run
      { classes := [base] }
  let root ← Build.addClass fun id => { role := .root, origin := id }
  let inner ← packages root path
  Build.updateClass inner fun d => { d with classes := d.classes.union found }
  linkParents ((← get).classes.size + 1) root
  return root

end Define

def Build.define (text : String) : Build ClassId :=
  match Source.read text with
  | .error p => throw (.malformed p)
  | .ok definition => Define.storedDefinition definition

end Modelica
