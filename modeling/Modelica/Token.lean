set_option autoImplicit false

-- Tokens of Modelica text: the fixed words and signs of the language, and the tokens whose text varies. Each
-- carries the place where it starts.

namespace Modelica

-- A place in a text: lines count from one, columns from zero, in characters.
structure Position where
  line : Nat
  column : Nat
deriving DecidableEq, Repr, Inhabited

namespace Position

def start : Position := ⟨1, 0⟩

def next (p : Position) (c : Char) : Position :=
  if c = '\n' then ⟨p.line + 1, 0⟩ else ⟨p.line, p.column + 1⟩

def advance (p : Position) (cs : List Char) : Position :=
  cs.foldl next p

@[simp] theorem advance_nil (p : Position) : p.advance [] = p := rfl

def before (p q : Position) : Bool :=
  p.line < q.line || (p.line == q.line && p.column < q.column)

end Position

inductive Terminal where
  | semicolon | class_ | model | operator | record | block | expandable | connector | type
  | package | pure | impure | function | optimization | end_ | equals | enumeration | leftParen
  | colon | rightParen | der | comma | extends_ | public_ | protected_ | external | replaceable
  | import_ | dot | star | leftBrace | rightBrace | constrainedby | flow | stream | discrete
  | parameter | constant | input | output | if_ | assign | equation | algorithm | constraint
  | break_ | return_ | lessEq | greaterEq | then_ | elseif | else_ | for_ | loop | in_ | while_
  | when | elsewhen | connect | minus | caret | dotCaret | slash | dotStar | dotSlash | plus
  | dotPlus | dotMinus | less | greater | equalsEquals | lessGreater | not_ | and_ | or_
  | false_ | true_ | leftBracket | rightBracket | annotation_ | each | partial_ | final
  | within | encapsulated | redeclare | inner | outer | initial
deriving DecidableEq, Repr, Inhabited

namespace Terminal

def spelling : Terminal → String
  | semicolon => ";" | class_ => "class" | model => "model" | operator => "operator"
  | record => "record" | block => "block" | expandable => "expandable"
  | connector => "connector" | type => "type" | package => "package" | pure => "pure"
  | impure => "impure" | function => "function" | optimization => "optimization"
  | end_ => "end" | equals => "=" | enumeration => "enumeration" | leftParen => "("
  | colon => ":" | rightParen => ")" | der => "der" | comma => "," | extends_ => "extends"
  | public_ => "public" | protected_ => "protected" | external => "external"
  | replaceable => "replaceable" | import_ => "import" | dot => "." | star => "*"
  | leftBrace => "\x7b" | rightBrace => "\x7d" | constrainedby => "constrainedby"
  | flow => "flow" | stream => "stream" | discrete => "discrete" | parameter => "parameter"
  | constant => "constant" | input => "input" | output => "output" | if_ => "if"
  | assign => ":=" | equation => "equation" | algorithm => "algorithm"
  | constraint => "constraint" | break_ => "break" | return_ => "return" | lessEq => "<="
  | greaterEq => ">=" | then_ => "then" | elseif => "elseif" | else_ => "else" | for_ => "for"
  | loop => "loop" | in_ => "in" | while_ => "while" | when => "when" | elsewhen => "elsewhen"
  | connect => "connect" | minus => "-" | caret => "^" | dotCaret => ".^" | slash => "/"
  | dotStar => ".*" | dotSlash => "./" | plus => "+" | dotPlus => ".+" | dotMinus => ".-"
  | less => "<" | greater => ">" | equalsEquals => "==" | lessGreater => "<>" | not_ => "not"
  | and_ => "and" | or_ => "or" | false_ => "false" | true_ => "true" | leftBracket => "["
  | rightBracket => "]" | annotation_ => "annotation" | each => "each" | partial_ => "partial"
  | final => "final" | within => "within" | encapsulated => "encapsulated"
  | redeclare => "redeclare" | inner => "inner" | outer => "outer" | initial => "initial"

def all : List Terminal :=
  [semicolon, class_, model, operator, record, block, expandable, connector, type, package, pure,
   impure, function, optimization, end_, equals, enumeration, leftParen, colon, rightParen, der,
   comma, extends_, public_, protected_, external, replaceable, import_, dot, star, leftBrace,
   rightBrace, constrainedby, flow, stream, discrete, parameter, constant, input, output, if_,
   assign, equation, algorithm, constraint, break_, return_, lessEq, greaterEq, then_, elseif,
   else_, for_, loop, in_, while_, when, elsewhen, connect, minus, caret, dotCaret, slash,
   dotStar, dotSlash, plus, dotPlus, dotMinus, less, greater, equalsEquals, lessGreater, not_,
   and_, or_, false_, true_, leftBracket, rightBracket, annotation_, each, partial_, final,
   within, encapsulated, redeclare, inner, outer, initial]

theorem mem_all (t : Terminal) : t ∈ all := by
  cases t <;> decide

end Terminal

inductive TokenKind where
  | terminal (t : Terminal)
  | ident
  | string
  | number
  | comment
  | eof
deriving DecidableEq, Repr, Inhabited

structure Token where
  kind : TokenKind
  text : String
  position : Position
deriving DecidableEq, Repr, Inhabited

end Modelica
