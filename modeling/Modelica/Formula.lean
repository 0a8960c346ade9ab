import Modelica.Decimal

set_option autoImplicit false

namespace Modelica

inductive FormulaSign where
  | plus | minus | times | over | power
deriving DecidableEq, Repr

inductive Formula where
  | number (text : String)
  | name (s : String)
  | signed (sign : FormulaSign) (e : Formula)
  | binary (sign : FormulaSign) (l r : Formula)
  | call (function : String) (arguments : List Formula)
  | diff (e : Formula)

namespace Formula

inductive Token where
  | number (text : String)
  | name (s : String)
  | sign (s : FormulaSign)
  | opening
  | closing
  | comma
  | point
deriving DecidableEq, Repr

def isNameStart (c : Char) : Bool := c.isAlpha || c = '_'

def isNameChar (c : Char) : Bool := c.isAlphanum || c = '_'

def takeNumber (cs : List Char) : List Char × List Char :=
  let whole := cs.takeWhile Char.isDigit
  let rest := cs.dropWhile Char.isDigit
  let (part, rest) :=
    match rest with
    | '.' :: r => ('.' :: r.takeWhile Char.isDigit, r.dropWhile Char.isDigit)
    | r => ([], r)
  let (exponent, rest) :=
    match rest with
    | 'e' :: '-' :: r => ('e' :: '-' :: r.takeWhile Char.isDigit, r.dropWhile Char.isDigit)
    | 'e' :: '+' :: r => ('e' :: '+' :: r.takeWhile Char.isDigit, r.dropWhile Char.isDigit)
    | r => ([], r)
  (whole ++ part ++ exponent, rest)

def tokensFrom : Nat → List Char → Option (List Token)
  | _, [] => some []
  | 0, _ => none
  | fuel + 1, c :: cs =>
    if c = ' ' then tokensFrom fuel cs
    else if c.isDigit then
      let (digits, rest) := takeNumber (c :: cs)
      (tokensFrom fuel rest).map (.number (String.ofList digits) :: ·)
    else if isNameStart c then
      let word := (c :: cs).takeWhile isNameChar
      (tokensFrom fuel ((c :: cs).dropWhile isNameChar)).map (.name (String.ofList word) :: ·)
    else
      match c, cs with
      | '*', '*' :: rest => (tokensFrom fuel rest).map (.sign .power :: ·)
      | '*', rest => (tokensFrom fuel rest).map (.sign .times :: ·)
      | '/', '/' :: _ => none
      | '/', rest => (tokensFrom fuel rest).map (.sign .over :: ·)
      | '+', rest => (tokensFrom fuel rest).map (.sign .plus :: ·)
      | '-', rest => (tokensFrom fuel rest).map (.sign .minus :: ·)
      | '(', rest => (tokensFrom fuel rest).map (.opening :: ·)
      | ')', rest => (tokensFrom fuel rest).map (.closing :: ·)
      | ',', rest => (tokensFrom fuel rest).map (.comma :: ·)
      | '.', rest => (tokensFrom fuel rest).map (.point :: ·)
      | _, _ => none

def tokens (text : String) : Option (List Token) :=
  tokensFrom text.toList.length text.toList

def keywords : List String :=
  ["False", "None", "True", "and", "as", "assert", "async", "await", "break", "class", "continue",
   "def", "del", "elif", "else", "except", "finally", "for", "from", "global", "if", "import",
   "in", "is", "lambda", "nonlocal", "not", "or", "pass", "raise", "return", "try", "while",
   "with", "yield"]

def constants : List String := ["False", "None", "True"]

def isIdentifier (s : String) : Bool :=
  match s.toList with
  | [] => false
  | c :: cs => isNameStart c && cs.all isNameChar && !keywords.contains s

mutual

def sum : Nat → List Token → Option (Formula × List Token)
  | 0, _ => none
  | fuel + 1, ts => do
    let (e, ts) ← product fuel ts
    sumRest fuel e ts

def sumRest : Nat → Formula → List Token → Option (Formula × List Token)
  | 0, _, _ => none
  | fuel + 1, e, .sign .plus :: ts => do
    let (r, ts) ← product fuel ts
    sumRest fuel (.binary .plus e r) ts
  | fuel + 1, e, .sign .minus :: ts => do
    let (r, ts) ← product fuel ts
    sumRest fuel (.binary .minus e r) ts
  | _ + 1, e, ts => some (e, ts)

def product : Nat → List Token → Option (Formula × List Token)
  | 0, _ => none
  | fuel + 1, ts => do
    let (e, ts) ← factor fuel ts
    productRest fuel e ts

def productRest : Nat → Formula → List Token → Option (Formula × List Token)
  | 0, _, _ => none
  | fuel + 1, e, .sign .times :: ts => do
    let (r, ts) ← factor fuel ts
    productRest fuel (.binary .times e r) ts
  | fuel + 1, e, .sign .over :: ts => do
    let (r, ts) ← factor fuel ts
    productRest fuel (.binary .over e r) ts
  | _ + 1, e, ts => some (e, ts)

def factor : Nat → List Token → Option (Formula × List Token)
  | 0, _ => none
  | fuel + 1, .sign .plus :: ts => do
    let (e, ts) ← factor fuel ts
    return (.signed .plus e, ts)
  | fuel + 1, .sign .minus :: ts => do
    let (e, ts) ← factor fuel ts
    return (.signed .minus e, ts)
  | fuel + 1, ts => do
    let (e, ts) ← primary fuel ts
    match ts with
    | .sign .power :: ts => do
      let (r, ts) ← factor fuel ts
      return (.binary .power e r, ts)
    | ts => return (e, ts)

def primary : Nat → List Token → Option (Formula × List Token)
  | 0, _ => none
  | _ + 1, .number t :: ts => some (.number t, ts)
  | fuel + 1, .name f :: .opening :: ts =>
    if keywords.contains f then none
    else do
      let (arguments, ts) ← arguments fuel ts
      diffs fuel (.call f arguments) ts
  | fuel + 1, .name s :: ts =>
    if keywords.contains s && !constants.contains s then none else diffs fuel (.name s) ts
  | fuel + 1, .opening :: ts => do
    let (e, ts) ← sum fuel ts
    match ts with
    | .closing :: ts => diffs fuel e ts
    | _ => none
  | _ + 1, _ => none

def arguments : Nat → List Token → Option (List Formula × List Token)
  | 0, _ => none
  | _ + 1, .closing :: ts => some ([], ts)
  | fuel + 1, ts => do
    let (e, ts) ← sum fuel ts
    match ts with
    | .comma :: ts => do
      let (es, ts) ← arguments fuel ts
      return (e :: es, ts)
    | .closing :: ts => return ([e], ts)
    | _ => none

def diffs : Nat → Formula → List Token → Option (Formula × List Token)
  | 0, _, _ => none
  | fuel + 1, e, .point :: .name "diff" :: .opening :: .name "self" :: .point :: .name "t" ::
      .closing :: ts => diffs fuel (.diff e) ts
  | _ + 1, _, .point :: _ => none
  | _ + 1, e, ts => some (e, ts)

end

def read? (text : String) : Option Formula := do
  let ts ← tokens text
  match sum (8 * (ts.length + 1)) ts with
  | some (e, []) => some e
  | _ => none

end Formula

end Modelica
