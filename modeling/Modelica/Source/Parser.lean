import Modelica.Source
import Modelica.Token.Lexer

set_option autoImplicit false

-- Reading the grammar from tokens, by recursive descent. A parser fails with the place of the token that it
-- cannot take. The fuel argument bounds the nesting of calls; each call that takes no token is followed by one
-- that does, so a multiple of the number of tokens is enough.

namespace Modelica.Source.Parser

abbrev Parse (α : Type) := StateT (List Token) (Except Position) α

def peekAt (n : Nat) : Parse TokenKind := fun ts =>
  .ok (match ts[n]? with
    | some t => t.kind
    | none => .eof, ts)

def peek : Parse TokenKind := peekAt 0

def place : Parse Position := fun ts =>
  .ok (match ts.head? with
    | some t => t.position
    | none => .start, ts)

def failAt {α : Type} (p : Position) : Parse α := fun _ => .error p

def fail {α : Type} : Parse α := do failAt (← place)

def skip : Parse Unit := fun ts => .ok ((), ts.tail)

def takeText : Parse String := fun ts =>
  .ok (match ts.head? with
    | some t => t.text
    | none => "", ts.tail)

def sees (t : Terminal) : Parse Bool := do
  return decide ((← peek) = .terminal t)

def seesAt (n : Nat) (t : Terminal) : Parse Bool := do
  return decide ((← peekAt n) = .terminal t)

def expect (t : Terminal) : Parse Unit := do
  if ← sees t then skip else fail

def accept (t : Terminal) : Parse Bool := do
  if ← sees t then
    skip
    return true
  else return false

def ident : Parse String := do
  if (← peek) = .ident then takeText else fail

def after {α : Type} (t : Terminal) (p : Parse α) : Parse (Option α) := do
  if ← accept t then return some (← p) else return none

def opening {α : Type} (t : Terminal) (p : Parse α) : Parse (Option α) := do
  if ← sees t then return some (← p) else return none

def manyWhile {α : Type} (ready : Parse Bool) (p : Parse α) : Nat → Parse (List α)
  | 0 => fail
  | n + 1 => do
    if ← ready then
      let x ← p
      let xs ← manyWhile ready p n
      return x :: xs
    else return []

def following {α : Type} (separator : Terminal) (p : Parse α) : Nat → Parse (List α)
  | 0 => fail
  | n + 1 => do
    if ← accept separator then
      let x ← p
      let xs ← following separator p n
      return x :: xs
    else return []

def separated {α : Type} (separator : Terminal) (p : Parse α) (n : Nat) : Parse (List α) := do
  let x ← p
  let xs ← following separator p n
  return x :: xs

def precedence : TokenKind → Option (Nat × Terminal)
  | .terminal t =>
    match t with
    | .star | .slash | .dotStar | .dotSlash => some (7, t)
    | .plus | .minus | .dotPlus | .dotMinus => some (6, t)
    | .less | .lessEq | .greater | .greaterEq | .equalsEquals | .lessGreater => some (5, t)
    | .and_ => some (3, t)
    | .or_ => some (2, t)
    | _ => none
  | _ => none

def negationLevel : Nat := 9

def notLevel : Nat := 4

def isPower : TokenKind → Option Terminal
  | .terminal .caret => some .caret
  | .terminal .dotCaret => some .dotCaret
  | _ => none

def continuesName (k : TokenKind) : Bool :=
  (precedence k).isSome || (isPower k).isSome ||
    k = .terminal .dot || k = .terminal .leftBracket || k = .terminal .leftParen ||
    k = .terminal .colon

-- Where a reference stands. Inside an expression a fault in its subscripts, or behind a point, is reported
-- where it is. Elsewhere the reference ends before it, and the bracket or the point is what cannot be taken. In
-- an import the point may lead on to a star or a list.
inductive ReferencePlace where
  | expression
  | direct
  | imported
deriving DecidableEq

mutual

def expression : Nat → Parse Expr
  | 0 => fail
  | n + 1 => do
    if ← accept .if_ then
      let condition ← expression n
      expect .then_
      let value ← expression n
      let more ← manyWhile (accept .elseif) (branch n) n
      expect .else_
      return .conditional ((condition, value) :: more) (← expression n)
    else simpleExpression n

def branch : Nat → Parse (Expr × Expr)
  | 0 => fail
  | n + 1 => do
    let condition ← expression n
    expect .then_
    return (condition, ← expression n)

def simpleExpression : Nat → Parse Expr
  | 0 => fail
  | n + 1 => do
    let first ← expr n 0
    match ← after .colon (expr n 0) with
    | none => return first
    | some second => return .range first second (← after .colon (expr n 0))

-- An expression all of whose outer operators bind at least as tightly as `level`.
def expr : Nat → Nat → Parse Expr
  | 0, _ => fail
  | n + 1, level => do
    if ← accept .minus then
      let e ← expr n negationLevel
      climb n level (.neg e)
    else if ← accept .not_ then
      let e ← expr n notLevel
      climb n level (.not_ e)
    else
      let base ← primary n
      match isPower (← peek) with
      | some sign =>
        skip
        let power ← primary n
        climb n level (.binary sign base power)
      | none => climb n level base

def climb : Nat → Nat → Expr → Parse Expr
  | 0, _, _ => fail
  | n + 1, level, left => do
    match precedence (← peek) with
    | some (p, sign) =>
      if level ≤ p then
        skip
        let right ← expr n (p + 1)
        climb n level (.binary sign left right)
      else return left
    | none => return left

def primary : Nat → Parse Expr
  | 0 => fail
  | n + 1 => do
    match ← peek with
    | .number => return .number (← takeText)
    | .string => return .string (← takeText)
    | .ident =>
      let parts ← reference .expression n
      match ← opening .leftParen (callArguments n) with
      | some arguments => return .call parts arguments
      | none => return .ref parts
    | .terminal t =>
      match t with
      | .false_ => skip; return .bool false
      | .true_ => skip; return .bool true
      | .der => skip; return .der (← callArguments n)
      | .initial => skip; return .initial (← callArguments n)
      | .leftParen =>
        skip
        let first ←
          if (← sees .comma) || (← sees .rightParen) then pure []
          else do pure [← expression n]
        let more ← following .comma (expression n) n
        expect .rightParen
        return .paren (first ++ more)
      | .leftBracket =>
        skip
        let rows ← separated .semicolon (separated .comma (expression n) n) n
        expect .rightBracket
        return .matrix rows
      | .leftBrace =>
        skip
        let arguments ← functionArguments n
        expect .rightBrace
        return .braces arguments
      | .end_ => skip; return .end_
      | _ => fail
    | _ => fail

def subscript : Nat → Parse Subscript
  | 0 => fail
  | n + 1 => do
    if ← accept .colon then return .all else return .expr (← expression n)

def subscripts : Nat → Parse Subscripts
  | 0 => fail
  | n + 1 => do
    expect .leftBracket
    let items ← separated .comma (subscript n) n
    expect .rightBracket
    return items

def referencePart : ReferencePlace → Nat → Parse RefPart
  | _, 0 => fail
  | where_, n + 1 => do
    let name ← ident
    if ← sees .leftBracket then
      let bracket ← place
      let items ← fun ts =>
        match subscripts n ts with
        | .ok r => .ok r
        | .error p => .error (if where_ = .expression then p else bracket)
      return .mk name (some items)
    else return .mk name none

def furtherParts : ReferencePlace → Nat → Parse (List RefPart)
  | _, 0 => fail
  | where_, n + 1 => do
    if ← sees .dot then
      if where_ = .expression || (← peekAt 1) = .ident then
        skip
        let part ← referencePart where_ n
        return part :: (← furtherParts where_ n)
      else return []
    else return []

def reference : ReferencePlace → Nat → Parse Reference
  | _, 0 => fail
  | where_, n + 1 => do
    let part ← referencePart where_ n
    return part :: (← furtherParts where_ n)

def callArguments : Nat → Parse Arguments
  | 0 => fail
  | n + 1 => do
    expect .leftParen
    if ← accept .rightParen then return .empty
    let arguments ← functionArguments n
    expect .rightParen
    return arguments

def functionArguments : Nat → Parse Arguments
  | 0 => fail
  | n + 1 => do
    if (← peek) = .ident && (← seesAt 1 .equals) then
      return .named (← separated .comma (namedArgument n) n)
    else
      let first ← functionArgument n
      return .positional (.argument first :: (← moreArguments n))

def moreArguments : Nat → Parse (List ArgumentItem)
  | 0 => fail
  | n + 1 => do
    if ← accept .comma then
      let a ← functionArgument n
      return .argument a :: (← moreArguments n)
    else if ← accept .for_ then
      let index ← forIndex n
      let more ← moreIndices false n
      return .iterators (index :: more) :: (← moreArguments n)
    else return []

def namedArgument : Nat → Parse (String × Argument)
  | 0 => fail
  | n + 1 => do
    let name ← ident
    expect .equals
    return (name, ← functionArgument n)

def functionArgument : Nat → Parse Argument
  | 0 => fail
  | n + 1 => do
    if ← accept .function then
      let name ← dottedName n
      expect .leftParen
      let named ←
        if ← sees .rightParen then pure []
        else separated .comma (namedArgument n) n
      expect .rightParen
      return .function name named
    else return .expr (← expression n)

def forIndex : Nat → Parse ForIndex
  | 0 => fail
  | n + 1 => do
    let name ← ident
    return .mk name (← after .in_ (expression n))

def moreIndices : Bool → Nat → Parse (List ForIndex)
  | _, 0 => fail
  | loop, n + 1 => do
    if ← sees .comma then
      if (← peekAt 1) = .ident && !continuesName (← peekAt 2) then
        skip
        let index ← forIndex n
        return index :: (← moreIndices loop n)
      else if loop then fail
      else return []
    else return []

def dottedName : Nat → Parse String
  | 0 => fail
  | n + 1 => do
    let start ← if ← accept .dot then pure "." else pure ""
    let names ← separated .dot ident n
    return start ++ ".".intercalate names

end

def forIndices (n : Nat) : Parse (List ForIndex) := do
  let index ← forIndex n
  return index :: (← moreIndices true n)

def stringComment (n : Nat) : Parse String := do
  if (← peek) = .string then
    let first ← takeText
    let more ← following .plus (do if (← peek) = .string then takeText else fail) n
    return "+".intercalate (first :: more)
  else return ""

def oneOf (ts : List Terminal) : Parse (List Terminal) := do
  match ← peek with
  | .terminal t =>
    if t ∈ ts then
      skip
      return [t]
    else return []
  | _ => return []

def typePrefix : Parse (List Terminal) := do
  let connection ← oneOf [.flow, .stream]
  let variability ← oneOf [.discrete, .parameter, .constant]
  let causality ← oneOf [.input, .output]
  return connection ++ variability ++ causality

def classWords : List Terminal :=
  [.class_, .model, .operator, .record, .block, .expandable, .connector, .type, .package, .pure,
   .impure, .function, .optimization]

def startsClass : TokenKind → Bool
  | .terminal t => t ∈ Terminal.encapsulated :: .partial_ :: classWords
  | _ => false

def classType : Parse String := do
  match ← peek with
  | .terminal t =>
    match t with
    | .operator =>
      skip
      if ← accept .record then return "operatorrecord"
      if ← accept .function then return "operatorfunction"
      return "operator"
    | .expandable =>
      skip
      expect .connector
      return "expandableconnector"
    | .pure | .impure =>
      skip
      let middle ← if ← accept .operator then pure "operator" else pure ""
      expect .function
      return t.spelling ++ middle ++ "function"
    | _ =>
      if t ∈ classWords then
        skip
        return t.spelling
      else fail
  | _ => fail

def typeSpecifier (n : Nat) : Parse (List String) :=
  separated .dot ident n

mutual

def classModification : Nat → Parse ClassModification
  | 0 => fail
  | n + 1 => do
    expect .leftParen
    if ← accept .rightParen then return []
    let arguments ← separated .comma (modificationArgument n) n
    expect .rightParen
    return arguments

def modificationArgument : Nat → Parse ModificationArgument
  | 0 => fail
  | n + 1 => do
    if ← accept .redeclare then
      let _ ← accept .each
      let _ ← accept .final
      if ← accept .replaceable then
        let element ← redeclared n
        return .redeclareReplaceable element (← constrainedBy n)
      else return .redeclare (← redeclared n)
    else
      let _ ← accept .each
      let _ ← accept .final
      if ← accept .replaceable then
        let element ← redeclared n
        return .replaceable element (← constrainedBy n)
      else
        let component ← reference .direct n
        let change ← modification n
        let _ ← stringComment n
        return .modify component change

def constrainedBy : Nat → Parse (Option ClassModification)
  | 0 => fail
  | n + 1 => do
    if ← accept .constrainedby then
      let _ ← dottedName n
      return some ((← opening .leftParen (classModification n)).getD [])
    else return none

def modification : Nat → Parse (Option Modification)
  | 0 => fail
  | n + 1 => do
    match ← peek with
    | .terminal .leftParen =>
      let arguments ← classModification n
      return some (.nested arguments (← after .equals (expression n)))
    | .terminal .equals => skip; return some (.assign (← expression n))
    | .terminal .assign => skip; return some (.assign (← expression n))
    | _ => return none

def redeclared : Nat → Parse Redeclared
  | 0 => fail
  | n + 1 => do
    let isPartial ← accept .partial_
    let isClass :=
      match ← peek with
      | .terminal t => decide (t ∈ classWords)
      | _ => false
    if isPartial || isClass then
      let type ← classType
      let name ← ident
      expect .equals
      if ← accept .enumeration then
        let literals ← enumerationLiterals n
        return .shortEnumeration type name literals (← comment n)
      else
        let _ ← typePrefix
        let base ← reference .direct n
        let items ← opening .leftBracket (subscripts n)
        let change ← opening .leftParen (classModification n)
        return .shortClass type name base items change (← comment n)
    else
      let words ← typePrefix
      let type ← typeSpecifier n
      let name ← ident
      let items ← opening .leftBracket (subscripts n)
      let change ← modification n
      return .component words type name items change (← comment n)

def enumerationLiterals : Nat → Parse (List Comment)
  | 0 => fail
  | n + 1 => do
    expect .leftParen
    if ← accept .colon then
      expect .rightParen
      return []
    if ← accept .rightParen then return []
    let literals ← separated .comma (do let _ ← ident; comment n) n
    expect .rightParen
    return literals

def comment : Nat → Parse Comment
  | 0 => fail
  | n + 1 => do
    let text ← stringComment n
    return .mk text (← annotated n)

def annotated : Nat → Parse (Option ClassModification)
  | 0 => fail
  | n + 1 => after .annotation_ (classModification n)

end

-- An equation starts here. The words `end` and `initial` start one only if what follows them belongs to an
-- expression.
def startsEquation : Parse Bool := do
  let later ← peekAt 1
  match ← peek with
  | .number | .string | .ident => return true
  | .terminal t =>
    match t with
    | .end_ =>
      return (precedence later).isSome || (isPower later).isSome ||
        later = .terminal .equals || later = .terminal .colon
    | .initial => return decide (later = .terminal .leftParen)
    | .false_ | .true_ | .der | .leftParen | .leftBracket | .leftBrace | .minus | .not_ | .if_
    | .for_ | .connect | .when | .dot => return true
    | _ => return false
  | _ => return false

def plainCall? : Expr → Option (String × Arguments)
  | .call parts arguments =>
    let names := parts.map fun
      | .mk name none => some name
      | .mk _ (some _) => none
    if names.all Option.isSome then some (".".intercalate (names.filterMap id), arguments)
    else none
  | _ => none

mutual

def equations : Nat → Parse (List Equation)
  | 0 => fail
  | n + 1 => manyWhile startsEquation (equation n) n

def equation : Nat → Parse Equation
  | 0 => fail
  | n + 1 => do
    let body ← equationBody n
    let note ← comment n
    expect .semicolon
    return .mk body note

def equationBody : Nat → Parse EquationBody
  | 0 => fail
  | n + 1 => do
    if ← accept .if_ then
      let first ← equationBranch n
      let more ← manyWhile (accept .elseif) (equationBranch n) n
      let otherwise ← after .else_ (equations n)
      expect .end_
      expect .if_
      return .ifThen (first :: more) otherwise
    else if ← accept .for_ then
      let indices ← forIndices n
      expect .loop
      let body ← equations n
      expect .end_
      expect .for_
      return .forLoop indices body
    else if ← accept .connect then
      expect .leftParen
      let left ← reference .direct n
      expect .comma
      let right ← reference .direct n
      expect .rightParen
      return .connect left right
    else if ← accept .when then
      let first ← equationBranch n
      let more ← manyWhile (accept .elsewhen) (equationBranch n) n
      expect .end_
      expect .when
      return .whenThen (first :: more)
    else if ← sees .dot then
      let name ← dottedName n
      return .call name (← callArguments n)
    else
      let left ← simpleExpression n
      if ← accept .equals then return .simple left (← expression n)
      match plainCall? left with
      | some (name, arguments) => return .call name arguments
      | none => fail

def equationBranch : Nat → Parse EquationBranch
  | 0 => fail
  | n + 1 => do
    let condition ← expression n
    expect .then_
    return .mk condition (← equations n)

end

def startsStatement : TokenKind → Bool
  | .ident => true
  | .terminal t =>
    t ∈ [Terminal.leftParen, .break_, .return_, .if_, .for_, .while_, .when]
  | _ => false

mutual

def statements : Nat → Parse (List Statement)
  | 0 => fail
  | n + 1 => manyWhile (do return startsStatement (← peek)) (statement n) n

def statement : Nat → Parse Statement
  | 0 => fail
  | n + 1 => do
    let body ← statementBody n
    let note ← comment n
    expect .semicolon
    return .mk body note

def statementBody : Nat → Parse StatementBody
  | 0 => fail
  | n + 1 => do
    match ← peek with
    | .ident =>
      let left ← reference .direct n
      if ← accept .assign then return .assign left (← expression n)
      if ← sees .leftParen then return .call left (← callArguments n)
      fail
    | .terminal t =>
      match t with
      | .leftParen =>
        skip
        let left ← separated .comma (reference .direct n) n
        expect .rightParen
        expect .assign
        let function ← reference .direct n
        return .assignCall left function (← callArguments n)
      | .break_ => skip; return .break_
      | .return_ => skip; return .return_
      | .if_ =>
        skip
        let first ← statementBranch n
        let more ← manyWhile (accept .elseif) (statementBranch n) n
        let otherwise ← after .else_ (statements n)
        expect .end_
        expect .if_
        return .ifThen (first :: more) otherwise
      | .for_ =>
        skip
        let indices ← forIndices n
        expect .loop
        let body ← statements n
        expect .end_
        expect .for_
        return .forLoop indices body
      | .while_ =>
        skip
        let condition ← expression n
        expect .loop
        let body ← statements n
        expect .end_
        expect .while_
        return .whileLoop condition body
      | .when =>
        skip
        let first ← statementBranch n
        let more ← manyWhile (accept .elsewhen) (statementBranch n) n
        expect .end_
        expect .when
        return .whenThen (first :: more)
      | _ => fail
    | _ => fail

def statementBranch : Nat → Parse StatementBranch
  | 0 => fail
  | n + 1 => do
    let condition ← expression n
    expect .then_
    return .mk condition (← statements n)

end

def startsSection : Parse Bool := do
  match ← peek with
  | .terminal t =>
    return t ∈ [Terminal.public_, .protected_, .initial, .equation, .algorithm, .constraint]
  | _ => return false

def startsConstraint : Parse Bool := do
  match ← peek with
  | .terminal .if_ | .terminal .for_ | .terminal .connect | .terminal .when | .terminal .dot =>
    return false
  | _ => startsEquation

def bracketDepth (depth : Nat) : TokenKind → Nat
  | .terminal t =>
    match t with
    | .leftParen | .leftBracket | .leftBrace => depth + 1
    | .rightParen | .rightBracket | .rightBrace => depth - 1
    | _ => depth
  | _ => depth

def relationPlaces (depth index : Nat) : List Token → List Nat
  | [] => []
  | t :: ts =>
    if depth = 0 && (t.kind = .terminal .semicolon || t.kind = .eof) then []
    else
      let later := relationPlaces (bracketDepth depth t.kind) (index + 1) ts
      if depth = 0 && (t.kind = .terminal .lessEq || t.kind = .terminal .greaterEq) then
        index :: later
      else later

def sideBefore (n : Nat) (ts : List Token) (place : Nat) : Option (Expr × List Token) :=
  match simpleExpression n (ts.take place ++ [⟨.eof, "", .start⟩]) with
  | .ok (left, [_]) => some (left, ts.drop place)
  | _ => none

def leftSide (n : Nat) : Parse Expr := fun ts =>
  match (relationPlaces 0 0 ts).reverse.findSome? (sideBefore n ts) with
  | some side => .ok side
  | none => simpleExpression n ts

def constraint (n : Nat) : Parse Constraint := do
  let left ← leftSide n
  let relation ←
    if ← accept .lessEq then pure Terminal.lessEq
    else if ← accept .greaterEq then pure Terminal.greaterEq
    else fail
  let right ← simpleExpression n
  let note ← comment n
  expect .semicolon
  return ⟨left, relation, right, note⟩

def declaration (n : Nat) : Parse Declaration := do
  let name ← ident
  let items ← opening .leftBracket (subscripts n)
  let change ← modification n
  let condition ← after .if_ (expression n)
  return ⟨name, items, change, condition, ← comment n⟩

def componentClause (n : Nat) : Parse ComponentClause := do
  let words ← typePrefix
  let type ← typeSpecifier n
  let items ← opening .leftBracket (subscripts n)
  return ⟨words, type, items, ← separated .comma (declaration n) n⟩

def importClause (n : Nat) : Parse Import := do
  if (← peek) = .ident && (← seesAt 1 .equals) then
    let name ← ident
    skip
    let component ← reference .direct n
    return .renaming name component (← comment n)
  else
    let component ← reference .imported n
    if ← accept .dot then
      if ← accept .star then return .all component (← comment n)
      expect .leftBrace
      let names ← separated .comma ident n
      expect .rightBrace
      return .selected component names (← comment n)
    else return .whole component (← comment n)

def externalCall (n : Nat) : Parse ExternalCall := do
  let result ←
    if (← peek) = .ident && (← seesAt 1 .leftParen) then pure none
    else do
      let left ← reference .direct n
      expect .equals
      pure (some left)
  let _ ← ident
  expect .leftParen
  let arguments ←
    if ← sees .rightParen then pure []
    else separated .comma (expression n) n
  expect .rightParen
  return ⟨result, arguments⟩

def externalClause (n : Nat) : Parse External := do
  if (← peek) = .string then skip
  let call ← if (← peek) = .ident then some <$> externalCall n else pure none
  let note ← annotated n
  expect .semicolon
  return ⟨call, note⟩

def constraining (n : Nat) : Parse (Option Constraining) := do
  match ← constrainedBy n with
  | some change => return some ⟨some change, ← comment n⟩
  | none => return none

def startsElement : TokenKind → Bool
  | .ident => true
  | .terminal t =>
    startsClass (.terminal t) ||
      t ∈ [Terminal.import_, .extends_, .redeclare, .final, .inner, .outer, .replaceable, .flow,
        .stream, .discrete, .parameter, .constant, .input, .output]
  | _ => false

def endName : Parse Unit := do
  expect .end_
  let _ ← ident

mutual

def classDefinition : Nat → Parse ClassDefinition
  | 0 => fail
  | n + 1 => do
    let encapsulated ← accept .encapsulated
    let isPartial ← accept .partial_
    let type ← classType
    return .mk encapsulated isPartial type (← classSpecifier n)

def classSpecifier : Nat → Parse ClassSpecifier
  | 0 => fail
  | n + 1 => do
    if ← accept .extends_ then
      let _ ← ident
      let change ← opening .leftParen (classModification n)
      let _ ← stringComment n
      let body ← composition n
      endName
      return .extending change body
    else
      let name ← ident
      if ← accept .equals then
        if ← accept .enumeration then
          let literals ← enumerationLiterals n
          return .enumeration literals (← comment n)
        else if ← accept .der then
          expect .leftParen
          let _ ← dottedName n
          expect .comma
          let _ ← separated .comma ident n
          expect .rightParen
          return .derivative (← comment n)
        else
          let _ ← typePrefix
          let component ← reference .direct n
          let change ← opening .leftParen (classModification n)
          return .base name component change (← comment n)
      else
        let change ← opening .leftParen (classModification n)
        let note ← stringComment n
        let body ← composition n
        endName
        return .long name change note body

def composition : Nat → Parse Composition
  | 0 => fail
  | n + 1 => do
    let leading ← elements n
    let sections ← manyWhile startsSection (bodySection n) n
    let external ← after .external (externalClause n)
    let note ←
      if ← sees .annotation_ then do
        let note ← annotated n
        expect .semicolon
        pure note
      else pure none
    return .mk leading sections external note

def bodySection : Nat → Parse Section
  | 0 => fail
  | n + 1 => do
    if ← accept .public_ then return .visible true (← elements n)
    if ← accept .protected_ then return .visible false (← elements n)
    let initial ← accept .initial
    if ← accept .equation then return .equations initial (← equations n)
    if ← accept .algorithm then return .statements initial (← statements n)
    if ← accept .constraint then
      return .constraints initial (← manyWhile startsConstraint (constraint n) n)
    fail

def elements : Nat → Parse (List Element)
  | 0 => fail
  | n + 1 => manyWhile (do return startsElement (← peek)) (element n) n

def element : Nat → Parse Element
  | 0 => fail
  | n + 1 => do
    let e ← elementBody n
    expect .semicolon
    return e

def elementBody : Nat → Parse Element
  | 0 => fail
  | n + 1 => do
    if ← accept .import_ then return .import_ (← importClause n)
    if ← accept .extends_ then
      let component ← reference .direct n
      let change ← opening .leftParen (classModification n)
      return .extends_ component change (← annotated n)
    let _ ← accept .redeclare
    let _ ← accept .final
    let _ ← accept .inner
    let _ ← accept .outer
    let isReplaceable ← accept .replaceable
    if startsClass (← peek) then
      let definition ← classDefinition n
      return .class_ definition (← if isReplaceable then constraining n else pure none)
    else
      let clause ← componentClause n
      return .component clause (← if isReplaceable then constraining n else pure none)

end

def storedClass (n : Nat) : Parse StoredClass := do
  let final ← accept .final
  let definition ← classDefinition n
  expect .semicolon
  return ⟨final, definition⟩

def startsStoredClass : Parse Bool := do
  let k ← peek
  return startsClass k || k = .terminal .final

def storedDefinition (n : Nat) : Parse StoredDefinition := do
  let package ←
    if ← accept .within then do
      let path ← if (← peek) = .ident then some <$> reference .direct n else pure none
      expect .semicolon
      pure path
    else pure none
  return ⟨package, ← manyWhile startsStoredClass (storedClass n) n⟩

end Modelica.Source.Parser

namespace Modelica.Source

def fuelFor (tokens : List Token) : Nat :=
  16 * (tokens.length + 1)

def firstFault (text : String) (stop : Option Position) : Option Position :=
  (Lexer.faults text).find? fun p =>
    match stop with
    | some q => p.before q
    | none => true

-- The definitions at the start of a text, or the place of the first fault. Reading stops without a fault at a
-- token that cannot start another class; the text behind it plays no part.
def read (text : String) : Except Position StoredDefinition :=
  let tokens := (Lexer.tokens text).filter fun t => t.kind ≠ .comment
  match Parser.storedDefinition (fuelFor tokens) tokens with
  | .ok (definition, rest) =>
    match firstFault text (rest.head?.map Token.position) with
    | some p => .error p
    | none => .ok definition
  | .error p => .error ((firstFault text (some p)).getD p)

end Modelica.Source
