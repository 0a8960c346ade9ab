import Modelica.Token

set_option autoImplicit false

-- Cutting a text into tokens. Every token rule is a recognizer that reads characters one by one. At each place
-- the rule with the longest match wins, and the earlier rule on equal length. Where no rule matches, the
-- characters that some rule could read, and the one after them, are a fault.

namespace Modelica.Lexer

-- A deterministic recognizer: `step` is undefined where the text can no longer be continued.
structure Recognizer where
  State : Type
  start : State
  step : State → Char → Option State
  accepts : State → Bool

-- How far a recognizer got on a text, and the longest match on the way.
structure Reach where
  viable : Nat
  matched : Option Nat
deriving DecidableEq, Repr

namespace Recognizer

def reachFrom (r : Recognizer) (s : r.State) : List Char → Reach
  | [] => ⟨0, if r.accepts s then some 0 else none⟩
  | c :: cs =>
    match r.step s c with
    | none => ⟨0, if r.accepts s then some 0 else none⟩
    | some t =>
      let later := r.reachFrom t cs
      ⟨later.viable + 1,
        match later.matched with
        | some n => some (n + 1)
        | none => if r.accepts s then some 0 else none⟩

def reach (r : Recognizer) (cs : List Char) : Reach :=
  r.reachFrom r.start cs

def matchesFrom (r : Recognizer) (s : r.State) : List Char → Bool
  | [] => r.accepts s
  | c :: cs =>
    match r.step s c with
    | none => false
    | some t => r.matchesFrom t cs

end Recognizer

def isLetter (c : Char) : Bool :=
  c.isAlpha || c == '_'

def isQuotable (c : Char) : Bool :=
  isLetter c || c.isDigit || "!#$%&()*+,-./:;<>=?@[]^\x7b\x7d| ".toList.contains c

def isEscape (c : Char) : Bool :=
  "'\"\\?bfnrtva".toList.contains c

def isBlank (c : Char) : Bool :=
  c == ' ' || c == '\r' || c == '\n' || c == '\t'

def literal (word : List Char) : Recognizer where
  State := List Char
  start := word
  step
    | [], _ => none
    | d :: ds, c => if c = d then some ds else none
  accepts := List.isEmpty

inductive IdentState where
  | start | word | opened | quoted | escape (any : Bool)

def ident : Recognizer where
  State := IdentState
  start := .start
  step
    | .start, c => if isLetter c then some .word else if c = '\'' then some .opened else none
    | .word, c => if isLetter c || c.isDigit then some .word else none
    | .opened, c =>
      if isQuotable c then some .quoted else if c = '\\' then some (.escape false) else none
    | .quoted, c =>
      if isQuotable c then some .quoted else if c = '\\' then some (.escape true) else none
    | .escape _, c => if isEscape c then some .quoted else none
  accepts
    | .word => true
    | .quoted => true
    | _ => false

inductive StringState where
  | start | body (escaped : Bool) | closed (escaped : Bool)

def string : Recognizer where
  State := StringState
  start := .start
  step
    | .start, c => if c = '"' then some (.body false) else none
    | .body escaped, c => if c = '"' then some (.closed escaped) else some (.body (c == '\\'))
    | .closed escaped, c =>
      if escaped then
        if c = '"' then some (.closed false) else some (.body (c == '\\'))
      else none
  accepts
    | .closed _ => true
    | _ => false

-- Inside a number, `level` counts the parts that may still take an exponent.
inductive NumberState where
  | start
  | digits (level : Nat)
  | point (level : Nat)
  | mark (level : Nat)
  | sign (level : Nat)
  | power (level : Nat)

-- A number is digits, then points each with an optional number, then an optional exponent.
def number : Recognizer where
  State := NumberState
  start := .start
  step
    | .start, c => if c.isDigit then some (.digits 1) else none
    | .digits n, c =>
      if c.isDigit then some (.digits n)
      else if c = '.' then some (.point n)
      else if c = 'e' || c = 'E' then some (.mark n)
      else none
    | .point n, c =>
      if c.isDigit then some (.digits (n + 1))
      else if c = '.' then some (.point n)
      else if c = 'e' || c = 'E' then some (.mark n)
      else none
    | .mark n, c =>
      if c.isDigit then some (.power (n - 1))
      else if c = '+' || c = '-' then some (.sign n)
      else none
    | .sign n, c => if c.isDigit then some (.power (n - 1)) else none
    | .power n, c =>
      if c.isDigit then some (.power n)
      else if n = 0 then none
      else if c = '.' then some (.point n)
      else if c = 'e' || c = 'E' then some (.mark n)
      else none
  accepts
    | .digits _ => true
    | .point _ => true
    | .power _ => true
    | _ => false

inductive CommentState where
  | start | slash | line | block | star | done

def comment : Recognizer where
  State := CommentState
  start := .start
  step
    | .start, c => if c = '/' then some .slash else none
    | .slash, c => if c = '/' then some .line else if c = '*' then some .block else none
    | .line, c => if c = '\n' then some .done else some .line
    | .block, c => if c = '*' then some .star else some .block
    | .star, c => if c = '/' then some .done else if c = '*' then some .star else some .block
    | .done, _ => none
  accepts
    | .done => true
    | _ => false

def blank : Recognizer where
  State := Bool
  start := false
  step := fun _ c => if isBlank c then some true else none
  accepts := id

inductive PieceKind where
  | token (kind : TokenKind)
  | blank
  | fault
deriving DecidableEq, Repr

def rules : List (PieceKind × Recognizer) :=
  Terminal.all.map (fun t => (.token (.terminal t), literal t.spelling.toList)) ++
    [(.token .ident, ident), (.token .string, string), (.token .number, number),
     (.token .comment, comment), (.blank, blank)]

structure Attempt where
  best : Option (PieceKind × Nat)
  viable : Nat

def Attempt.consider (a : Attempt) (kind : PieceKind) (r : Reach) : Attempt :=
  { best :=
      match r.matched, a.best with
      | none, b => b
      | some n, none => some (kind, n)
      | some n, some (k, m) => if m < n then some (kind, n) else some (k, m)
    viable := max a.viable r.viable }

def attempt (cs : List Char) : Attempt :=
  rules.foldl (fun a rule => a.consider rule.1 (rule.2.reach cs)) ⟨none, 0⟩

def nextPiece (cs : List Char) : PieceKind × Nat :=
  let a := attempt cs
  match a.best with
  | some (kind, n + 1) => (kind, n + 1)
  | _ => (.fault, a.viable + 1)

structure Piece where
  kind : PieceKind
  chars : List Char
  position : Position
deriving DecidableEq, Repr

def cut : Nat → Position → List Char → List Piece
  | 0, _, _ => []
  | _, _, [] => []
  | fuel + 1, p, c :: cs =>
    let (kind, n) := nextPiece (c :: cs)
    let chars := (c :: cs).take n
    ⟨kind, chars, p⟩ :: cut fuel (p.advance chars) ((c :: cs).drop n)

def pieces (text : String) : List Piece :=
  cut text.toList.length .start text.toList

def Piece.token? (piece : Piece) : Option Token :=
  match piece.kind with
  | .token kind => some ⟨kind, String.ofList piece.chars, piece.position⟩
  | _ => none

def tokens (text : String) : List Token :=
  (pieces text).filterMap Piece.token? ++
    [⟨.eof, "<EOF>", Position.start.advance text.toList⟩]

def faults (text : String) : List Position :=
  (pieces text).filterMap fun piece =>
    if piece.kind = .fault then some piece.position else none

end Modelica.Lexer
