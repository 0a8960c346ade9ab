import Modelica.Proofs.Source.Printed

set_option autoImplicit false

namespace Modelica.Source.Parser

def nextKind (ts : List Token) : TokenKind :=
  match ts[0]? with
  | some t => t.kind
  | none => .eof

@[simp] theorem nextKind_cons (t : Token) (ts : List Token) : nextKind (t :: ts) = t.kind := rfl

section Steps

variable {α β : Type} (ts : List Token)

theorem run_bind {ts rest : List Token} {x : Parse α} {f : α → Parse β} {a : α}
    (ran : x ts = .ok (a, rest)) : (x >>= f) ts = f a rest := by
  simp [bind, StateT.bind, Except.bind, ran]

@[simp] theorem run_pure (a : α) : (pure a : Parse α) ts = .ok (a, ts) := rfl

@[simp] theorem run_peek : peek ts = .ok (nextKind ts, ts) := rfl

@[simp] theorem run_sees (t : Terminal) : sees t ts = .ok (decide (nextKind ts = .terminal t), ts) := rfl

@[simp] theorem run_skip (t : Token) : skip (t :: ts) = .ok ((), ts) := rfl

theorem run_accept (t : Terminal) (here : Token) (same : here.kind = .terminal t) :
    accept t (here :: ts) = .ok (true, ts) := by
  simp [accept, bind, StateT.bind, Except.bind, same]

theorem run_accept_not (t : Terminal) (other : nextKind ts ≠ .terminal t) : accept t ts = .ok (false, ts) := by
  simp [accept, bind, StateT.bind, Except.bind, other]

theorem run_expect (t : Terminal) (here : Token) (same : here.kind = .terminal t) :
    expect t (here :: ts) = .ok ((), ts) := by
  simp [expect, bind, StateT.bind, Except.bind, same]

end Steps

section Unfolding

-- derives the equations of the rules once, in front of the lemmas that rewrite with them
attribute [local simp] expression branch simpleExpression expr climb primary subscript subscripts
  referencePart furtherParts reference callArguments functionArguments moreArguments functionArgument

end Unfolding

-- One lemma for each way a rule can go on.
section Rules

variable (n level : Nat) (ts rest : List Token)

theorem expression_simple (other : nextKind ts ≠ .terminal .if_) : expression (n + 1) ts = simpleExpression n ts := by
  rw [expression, run_bind (run_accept_not ts .if_ other)]
  rfl

theorem simpleExpression_expr (e : Expr) (read : expr n 0 ts = .ok (e, rest))
    (other : nextKind rest ≠ .terminal .colon) : simpleExpression (n + 1) ts = .ok (e, rest) := by
  have none : after .colon (expr n 0) rest = .ok (none, rest) := by
    rw [after, run_bind (run_accept_not rest .colon other)]
    rfl
  rw [simpleExpression, run_bind read, run_bind none]
  rfl

theorem expression_conditional (c v o : Expr) (more : List (Expr × Expr)) (i t u : Token)
    (first second behind last : List Token) (isIf : i.kind = .terminal .if_)
    (isThen : t.kind = .terminal .then_) (isElse : u.kind = .terminal .else_)
    (condition : expression n first = .ok (c, t :: second)) (value : expression n second = .ok (v, behind))
    (branches : manyWhile (accept .elseif) (branch n) n behind = .ok (more, u :: last))
    (otherwise : expression n last = .ok (o, rest)) :
    expression (n + 1) (i :: first) = .ok (.conditional ((c, v) :: more) o, rest) := by
  rw [expression, run_bind (run_accept first .if_ i isIf)]
  show (expression n >>= _) first = _
  rw [run_bind condition, run_bind (run_expect second .then_ t isThen), run_bind value, run_bind branches,
    run_bind (run_expect last .else_ u isElse), run_bind otherwise]
  rfl

theorem branch_read (c v : Expr) (t : Token) (second : List Token)
    (isThen : t.kind = .terminal .then_) (condition : expression n ts = .ok (c, t :: second))
    (value : expression n second = .ok (v, rest)) : branch (n + 1) ts = .ok ((c, v), rest) := by
  rw [branch, run_bind condition, run_bind (run_expect second .then_ t isThen), run_bind value]
  rfl

theorem expr_neg (e : Expr) (t : Token) (isMinus : t.kind = .terminal .minus)
    (read : expr n negationLevel ts = .ok (e, rest)) : expr (n + 1) level (t :: ts) = climb n level (.neg e) rest := by
  rw [expr, run_bind (run_accept ts .minus t isMinus)]
  show (expr n negationLevel >>= _) ts = _
  rw [run_bind read]

theorem expr_not (e : Expr) (t : Token) (isNot : t.kind = .terminal .not_) (read : expr n notLevel ts = .ok (e, rest)) :
    expr (n + 1) level (t :: ts) = climb n level (.not_ e) rest := by
  rw [expr, run_bind (run_accept_not (t :: ts) .minus (by simp [isNot]))]
  show (accept .not_ >>= _) (t :: ts) = _
  rw [run_bind (run_accept ts .not_ t isNot)]
  show (expr n notLevel >>= _) ts = _
  rw [run_bind read]

theorem expr_primary (e : Expr) (noMinus : nextKind ts ≠ .terminal .minus)
    (noNot : nextKind ts ≠ .terminal .not_) (read : primary n ts = .ok (e, rest))
    (noPower : isPower (nextKind rest) = none) : expr (n + 1) level ts = climb n level e rest := by
  rw [expr, run_bind (run_accept_not ts .minus noMinus)]
  show (accept .not_ >>= _) ts = _
  rw [run_bind (run_accept_not ts .not_ noNot)]
  show (primary n >>= _) ts = _
  rw [run_bind read, run_bind (run_peek rest)]
  simp only [noPower]

theorem expr_power (l r : Expr) (sign : Terminal) (t : Token) (second : List Token)
    (noMinus : nextKind ts ≠ .terminal .minus) (noNot : nextKind ts ≠ .terminal .not_)
    (left : primary n ts = .ok (l, t :: second)) (power : isPower t.kind = some sign)
    (right : primary n second = .ok (r, rest)) : expr (n + 1) level ts = climb n level (.binary sign l r) rest := by
  rw [expr, run_bind (run_accept_not ts .minus noMinus)]
  show (accept .not_ >>= _) ts = _
  rw [run_bind (run_accept_not ts .not_ noNot)]
  show (primary n >>= _) ts = _
  rw [run_bind left, run_bind (run_peek _)]
  simp only [nextKind_cons, power]
  rw [run_bind (run_skip second t), run_bind right]

theorem climb_stop (e : Expr) (stop : ∀ p sign, precedence (nextKind ts) = some (p, sign) → p < level) :
    climb (n + 1) level e ts = .ok (e, ts) := by
  rw [climb, run_bind (run_peek ts)]
  cases next : precedence (nextKind ts) with
  | none => rfl
  | some q =>
    have less := stop q.1 q.2 next
    simp [Nat.not_le.2 less]

theorem climb_binary (l r : Expr) (p : Nat) (sign : Terminal) (t : Token)
    (binds : precedence t.kind = some (p, sign)) (tight : level ≤ p) (right : expr n (p + 1) ts = .ok (r, rest)) :
    climb (n + 1) level l (t :: ts) = climb n level (.binary sign l r) rest := by
  rw [climb, run_bind (run_peek _)]
  simp only [nextKind_cons, binds, tight, if_true]
  rw [run_bind (run_skip ts t), run_bind right]

theorem primary_number (t : Token) (isNumber : t.kind = .number) :
    primary (n + 1) (t :: ts) = .ok (.number t.text, ts) := by
  rw [primary, run_bind (run_peek _)]
  simp only [nextKind_cons, isNumber]
  rfl

theorem primary_string (t : Token) (isString : t.kind = .string) :
    primary (n + 1) (t :: ts) = .ok (.string t.text, ts) := by
  rw [primary, run_bind (run_peek _)]
  simp only [nextKind_cons, isString]
  rfl

theorem primary_bool (b : Bool) (t : Token) (isBool : t.kind = .terminal (if b then .true_ else .false_)) :
    primary (n + 1) (t :: ts) = .ok (.bool b, ts) := by
  rw [primary, run_bind (run_peek _)]
  cases b <;> simp only [nextKind_cons, isBool] <;> rfl

theorem primary_ref (parts : Reference) (isName : nextKind ts = .ident)
    (read : reference .expression n ts = .ok (parts, rest)) (noCall : nextKind rest ≠ .terminal .leftParen) :
    primary (n + 1) ts = .ok (.ref parts, rest) := by
  have none : opening .leftParen (callArguments n) rest = .ok (none, rest) := by
    rw [opening, run_bind (run_sees rest _)]
    simp [noCall]
  rw [primary, run_bind (run_peek _)]
  simp only [isName]
  rw [run_bind read, run_bind none]
  rfl

theorem primary_call (parts : Reference) (arguments : Arguments) (behind : List Token)
    (isName : nextKind ts = .ident) (read : reference .expression n ts = .ok (parts, behind))
    (isCall : nextKind behind = .terminal .leftParen) (inside : callArguments n behind = .ok (arguments, rest)) :
    primary (n + 1) ts = .ok (.call parts arguments, rest) := by
  have some : opening .leftParen (callArguments n) behind = .ok (some arguments, rest) := by
    rw [opening, run_bind (run_sees behind _)]
    simp only [isCall, decide_true, if_true]
    rw [run_bind inside]
    rfl
  rw [primary, run_bind (run_peek _)]
  simp only [isName]
  rw [run_bind read, run_bind some]
  rfl

theorem primary_der (arguments : Arguments) (t : Token) (isDer : t.kind = .terminal .der)
    (inside : callArguments n ts = .ok (arguments, rest)) : primary (n + 1) (t :: ts) = .ok (.der arguments, rest) := by
  rw [primary, run_bind (run_peek _)]
  simp only [nextKind_cons, isDer]
  rw [run_bind (run_skip ts t), run_bind inside]
  rfl

theorem primary_braces (arguments : Arguments) (t u : Token) (isOpen : t.kind = .terminal .leftBrace)
    (isClose : u.kind = .terminal .rightBrace) (inside : functionArguments n ts = .ok (arguments, u :: rest)) :
    primary (n + 1) (t :: ts) = .ok (.braces arguments, rest) := by
  rw [primary, run_bind (run_peek _)]
  simp only [nextKind_cons, isOpen]
  rw [run_bind (run_skip ts t), run_bind inside, run_bind (run_expect rest .rightBrace u isClose)]
  rfl

variable {α : Type}

theorem following_none (separator : Terminal) (item : Parse α) (other : nextKind ts ≠ .terminal separator) :
    following separator item (n + 1) ts = .ok ([], ts) := by
  rw [following, run_bind (run_accept_not ts separator other)]
  rfl

theorem following_next (separator : Terminal) (item : Parse α) (x : α) (xs : List α) (t : Token)
    (behind : List Token) (same : t.kind = .terminal separator) (read : item ts = .ok (x, behind))
    (more : following separator item n behind = .ok (xs, rest)) :
    following separator item (n + 1) (t :: ts) = .ok (x :: xs, rest) := by
  rw [following, run_bind (run_accept ts separator t same)]
  show (item >>= _) ts = _
  rw [run_bind read, run_bind more]
  rfl

theorem manyWhile_none (ready : Parse Bool) (item : Parse α) (stop : ready ts = .ok (false, rest)) :
    manyWhile ready item (n + 1) ts = .ok ([], rest) := by
  rw [manyWhile, run_bind stop]
  rfl

theorem manyWhile_next (ready : Parse Bool) (item : Parse α) (x : α) (xs : List α)
    (start behind : List Token) (here : ready ts = .ok (true, start))
    (read : item start = .ok (x, behind)) (more : manyWhile ready item n behind = .ok (xs, rest)) :
    manyWhile ready item (n + 1) ts = .ok (x :: xs, rest) := by
  rw [manyWhile, run_bind here]
  show (item >>= _) start = _
  rw [run_bind read, run_bind more]
  rfl

theorem primary_paren (e : Expr) (t u : Token) (isOpen : t.kind = .terminal .leftParen)
    (isClose : u.kind = .terminal .rightParen) (noComma : nextKind ts ≠ .terminal .comma)
    (noClose : nextKind ts ≠ .terminal .rightParen) (inside : expression (n + 1) ts = .ok (e, u :: rest)) :
    primary (n + 2) (t :: ts) = .ok (.paren [e], rest) := by
  have none := following_none n (u :: rest) .comma (expression (n + 1)) (by simp [isClose])
  rw [primary, run_bind (run_peek _)]
  simp only [nextKind_cons, isOpen]
  rw [run_bind (run_skip ts t), run_bind (run_sees ts _), run_bind (run_sees ts _)]
  simp only [noComma, noClose, decide_false, Bool.or_self, Bool.false_eq_true, if_false]
  rw [run_bind inside, run_bind (run_pure _ [e]), run_bind none, run_bind (run_expect rest .rightParen u isClose)]
  rfl

theorem subscript_all (t : Token) (isColon : t.kind = .terminal .colon) :
    subscript (n + 1) (t :: ts) = .ok (.all, ts) := by
  rw [subscript, run_bind (run_accept ts .colon t isColon)]
  rfl

theorem subscript_expr (e : Expr) (other : nextKind ts ≠ .terminal .colon)
    (read : expression n ts = .ok (e, rest)) : subscript (n + 1) ts = .ok (.expr e, rest) := by
  rw [subscript, run_bind (run_accept_not ts .colon other)]
  show (expression n >>= _) ts = _
  rw [run_bind read]
  rfl

theorem subscripts_read (x : Subscript) (xs : List Subscript) (t u : Token) (behind : List Token)
    (isOpen : t.kind = .terminal .leftBracket) (isClose : u.kind = .terminal .rightBracket)
    (first : subscript n ts = .ok (x, behind)) (more : following .comma (subscript n) n behind = .ok (xs, u :: rest)) :
    subscripts (n + 1) (t :: ts) = .ok (x :: xs, rest) := by
  have items : separated .comma (subscript n) n ts = .ok (x :: xs, u :: rest) := by
    rw [separated, run_bind first, run_bind more]
    rfl
  rw [subscripts, run_bind (run_expect ts .leftBracket t isOpen),
    run_bind items, run_bind (run_expect rest .rightBracket u isClose)]
  rfl

theorem run_ident (t : Token) (isName : t.kind = .ident) : ident (t :: ts) = .ok (t.text, ts) := by
  rw [ident, run_bind (run_peek _)]
  simp only [nextKind_cons, isName, if_true]
  rfl

theorem referencePart_plain (t : Token) (isName : t.kind = .ident) (other : nextKind ts ≠ .terminal .leftBracket) :
    referencePart .expression (n + 1) (t :: ts) = .ok (.mk t.text none, ts) := by
  rw [referencePart, run_bind (run_ident ts t isName), run_bind (run_sees ts _)]
  simp [other]

theorem referencePart_subscripted (t : Token) (items : Subscripts) (isName : t.kind = .ident)
    (isOpen : nextKind ts = .terminal .leftBracket) (read : subscripts n ts = .ok (items, rest)) :
    referencePart .expression (n + 1) (t :: ts) = .ok (.mk t.text (some items), rest) := by
  rw [referencePart, run_bind (run_ident ts t isName), run_bind (run_sees ts _)]
  simp only [isOpen, decide_true, if_true]
  rw [run_bind (show place ts = .ok (_, ts) from rfl)]
  rw [run_bind (show (_ : Parse Subscripts) ts = .ok (items, rest) by simp only [read])]
  rfl

theorem furtherParts_none (other : nextKind ts ≠ .terminal .dot) :
    furtherParts .expression (n + 1) ts = .ok ([], ts) := by
  rw [furtherParts, run_bind (run_sees ts _)]
  simp [other]

theorem furtherParts_next (t : Token) (isDot : t.kind = .terminal .dot) :
    furtherParts .expression (n + 1) (t :: ts) = reference .expression (n + 1) ts := by
  rw [furtherParts, run_bind (run_sees _ _)]
  simp only [nextKind_cons, isDot, decide_true, if_true]
  have second : peekAt 1 (t :: ts) = .ok (ts.head?.elim .eof Token.kind, t :: ts) := by
    cases ts <;> rfl
  rw [run_bind second]
  show (skip >>= _) (t :: ts) = _
  rw [run_bind (run_skip ts t), reference]

theorem reference_read (x : RefPart) (xs : List RefPart) (behind : List Token)
    (first : referencePart .expression n ts = .ok (x, behind))
    (more : furtherParts .expression n behind = .ok (xs, rest)) :
    reference .expression (n + 1) ts = .ok (x :: xs, rest) := by
  rw [reference, run_bind first, run_bind more]
  rfl

theorem functionArgument_expr (e : Expr) (other : nextKind ts ≠ .terminal .function)
    (read : expression n ts = .ok (e, rest)) : functionArgument (n + 1) ts = .ok (.expr e, rest) := by
  rw [functionArgument, run_bind (run_accept_not ts .function other)]
  show (expression n >>= _) ts = _
  rw [run_bind read]
  rfl

theorem moreArguments_none (noComma : nextKind ts ≠ .terminal .comma)
    (noFor : nextKind ts ≠ .terminal .for_) : moreArguments (n + 1) ts = .ok ([], ts) := by
  rw [moreArguments, run_bind (run_accept_not ts .comma noComma)]
  show (accept .for_ >>= _) ts = _
  rw [run_bind (run_accept_not ts .for_ noFor)]
  rfl

theorem moreArguments_next (x : Argument) (xs : List ArgumentItem) (t : Token)
    (behind : List Token) (isComma : t.kind = .terminal .comma) (read : functionArgument n ts = .ok (x, behind))
    (more : moreArguments n behind = .ok (xs, rest)) :
    moreArguments (n + 1) (t :: ts) = .ok (.argument x :: xs, rest) := by
  rw [moreArguments, run_bind (run_accept ts .comma t isComma)]
  show (functionArgument n >>= _) ts = _
  rw [run_bind read, run_bind more]
  rfl

theorem functionArguments_positional (x : Argument) (xs : List ArgumentItem) (behind : List Token)
    (unnamed : nextKind ts.tail ≠ .terminal .equals) (first : functionArgument n ts = .ok (x, behind))
    (more : moreArguments n behind = .ok (xs, rest)) :
    functionArguments (n + 1) ts = .ok (.positional (.argument x :: xs), rest) := by
  have second : seesAt 1 .equals ts = .ok (false, ts) := by
    have same : peekAt 1 ts = .ok (nextKind ts.tail, ts) := by cases ts <;> rfl
    rw [seesAt, run_bind same]
    simp [unnamed]
  rw [functionArguments, run_bind (run_peek ts), run_bind second]
  simp only [Bool.and_false, Bool.false_eq_true, if_false]
  rw [run_bind first, run_bind more]
  rfl

theorem callArguments_read (arguments : Arguments) (t u : Token)
    (isOpen : t.kind = .terminal .leftParen) (isClose : u.kind = .terminal .rightParen)
    (some : nextKind ts ≠ .terminal .rightParen) (inside : functionArguments n ts = .ok (arguments, u :: rest)) :
    callArguments (n + 1) (t :: ts) = .ok (arguments, rest) := by
  rw [callArguments, run_bind (run_expect ts .leftParen t isOpen), run_bind (run_accept_not ts .rightParen some)]
  show (functionArguments n >>= _) ts = _
  rw [run_bind inside, run_bind (run_expect rest .rightParen u isClose)]
  rfl

end Rules

end Modelica.Source.Parser
