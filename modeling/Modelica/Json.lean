import Modelica.Decimal
import Modelica.OrderedMap
import Modelica.Text.Quoted

set_option autoImplicit false

namespace Modelica

inductive Json where
  | null
  | bool (b : Bool)
  | integer (n : Int)
  | real (x : Binary64)
  | string (s : String)
  | list (items : List Json)
  | table (entries : List (String × Json))
deriving Inhabited, Repr

namespace Json

structure Fault where
  reason : String
  place : Nat
deriving DecidableEq, Repr

def Fault.message (text : List Char) (f : Fault) : String :=
  let before := text.take f.place
  let line := before.count '\n' + 1
  let column := (before.reverse.takeWhile (· ≠ '\n')).length + 1
  f.reason ++ ": line " ++ toString line ++ " column " ++ toString column ++
    " (char " ++ toString f.place ++ ")"

def skip (cs : List Char) : List Char :=
  cs.dropWhile fun c => c = ' ' || c = '\t' || c = '\n' || c = '\r'

def hexValue? (c : Char) : Option Nat :=
  if '0' ≤ c && c ≤ '9' then some (c.toNat - 48)
  else if 'a' ≤ c && c ≤ 'f' then some (c.toNat - 87)
  else if 'A' ≤ c && c ≤ 'F' then some (c.toNat - 55)
  else none

def fourHex? : List Char → Option (Nat × List Char)
  | a :: b :: c :: d :: rest => do
    let n := (((← hexValue? a) * 16 + (← hexValue? b)) * 16 + (← hexValue? c)) * 16
    return (n + (← hexValue? d), rest)
  | _ => none

def escaped? (c : Char) : Option Char :=
  match c with
  | '"' => some '"'
  | '\\' => some '\\'
  | '/' => some '/'
  | 'b' => some (Char.ofNat 8)
  | 'f' => some (Char.ofNat 12)
  | 'n' => some '\n'
  | 'r' => some '\r'
  | 't' => some '\t'
  | _ => none

def unitChar (n : Nat) (rest : List Char) : Char × List Char :=
  if 0xD800 ≤ n && n < 0xDC00 then
    match rest with
    | '\\' :: 'u' :: more =>
      match fourHex? more with
      | some (m, after) =>
        if 0xDC00 ≤ m && m < 0xE000 then
          (Char.ofNat (0x10000 + (n - 0xD800) * 0x400 + (m - 0xDC00)), after)
        else (Char.ofNat 0xFFFD, rest)
      | none => (Char.ofNat 0xFFFD, rest)
    | _ => (Char.ofNat 0xFFFD, rest)
  else if 0xDC00 ≤ n && n < 0xE000 then (Char.ofNat 0xFFFD, rest)
  else (Char.ofNat n, rest)

section

-- the number of characters of the whole text
variable (size : Nat)

def placeOf (rest : List Char) : Nat := size - rest.length

def readString (start : Nat) (done : List Char) :
    Nat → List Char → Except Fault (String × List Char)
  | 0, _ => .error ⟨"Unterminated string starting at", start⟩
  | _, [] => .error ⟨"Unterminated string starting at", start⟩
  | fuel + 1, c :: rest =>
    if c = '"' then .ok (String.ofList done.reverse, rest)
    else if c.toNat < 32 then .error ⟨"Invalid control character at", placeOf size (c :: rest)⟩
    else if c ≠ '\\' then readString start (c :: done) fuel rest
    else
      match rest with
      | [] => .error ⟨"Unterminated string starting at", start⟩
      | 'u' :: more =>
        match fourHex? more with
        | none => .error ⟨"Invalid \\uXXXX escape", placeOf size rest⟩
        | some (n, after) =>
          let (d, after) := unitChar n after
          readString start (d :: done) fuel after
      | e :: more =>
        match escaped? e with
        | none => .error ⟨"Invalid \\escape", placeOf size (c :: rest)⟩
        | some d => readString start (d :: done) fuel more

def negated (x : Binary64) : Binary64 := ⟨x.bits ||| 0x8000000000000000⟩

def readNumber? (cs : List Char) : Option (Json × List Char) := do
  let negative := cs.head? = some '-'
  let unsigned := if negative then cs.drop 1 else cs
  let whole ←
    match unsigned with
    | '0' :: _ => some ['0']
    | c :: _ => if c.isDigit then some (unsigned.takeWhile Char.isDigit) else none
    | [] => none
  let rest := unsigned.drop whole.length
  let part :=
    match rest with
    | '.' :: r =>
      let digits := r.takeWhile Char.isDigit
      if digits.isEmpty then [] else '.' :: digits
    | _ => []
  let rest := rest.drop part.length
  let exponent :=
    match rest with
    | e :: r =>
      if e = 'e' || e = 'E' then
        let sign := (r.take 1).filter fun c => c = '-' || c = '+'
        let digits := (r.drop sign.length).takeWhile Char.isDigit
        if digits.isEmpty then [] else e :: (sign ++ digits)
      else []
    | [] => []
  let rest := rest.drop exponent.length
  if part.isEmpty && exponent.isEmpty then
    let n : Int := Decimal.digitsValue whole
    return (.integer (if negative then -n else n), rest)
  else
    let x ← Decimal.read? (whole ++ part ++ exponent)
    return (.real (if negative then negated x else x), rest)

def constants : List (String × Json) :=
  [("null", .null), ("true", .bool true), ("false", .bool false),
    ("NaN", .real ⟨0x7FF8000000000000⟩), ("Infinity", .real .infinity),
    ("-Infinity", .real (negated .infinity))]

def readConstant? (cs : List Char) : Option (Json × List Char) :=
  (constants.find? fun e => e.1.toList.isPrefixOf cs).map fun e => (e.2, cs.drop e.1.length)

mutual

def readValue : Nat → List Char → Except Fault (Json × List Char)
  | 0, cs => .error ⟨"Expecting value", placeOf size cs⟩
  | fuel + 1, cs =>
    match cs with
    | '"' :: rest => do
      let (s, rest) ← readString size (placeOf size cs) [] size rest
      return (.string s, rest)
    | '[' :: rest =>
      match skip rest with
      | ']' :: rest => .ok (.list [], rest)
      | rest => readItems [] fuel rest
    | '\x7b' :: rest =>
      match skip rest with
      | '\x7d' :: rest => .ok (.table [], rest)
      | rest => readEntries .empty fuel rest
    | cs =>
      match readConstant? cs <|> readNumber? cs with
      | some found => .ok found
      | none => .error ⟨"Expecting value", placeOf size cs⟩

def readItems (done : List Json) : Nat → List Char → Except Fault (Json × List Char)
  | 0, cs => .error ⟨"Expecting value", placeOf size cs⟩
  | fuel + 1, cs => do
    let (item, rest) ← readValue fuel cs
    match skip rest with
    | ']' :: rest => return (.list (item :: done).reverse, rest)
    | ',' :: rest => readItems (item :: done) fuel (skip rest)
    | rest => throw ⟨"Expecting ',' delimiter", placeOf size rest⟩

def readEntries (done : OrderedMap String Json) :
    Nat → List Char → Except Fault (Json × List Char)
  | 0, cs => .error ⟨"Expecting value", placeOf size cs⟩
  | fuel + 1, cs =>
    match cs with
    | '"' :: rest => do
      let (key, rest) ← readString size (placeOf size cs) [] size rest
      match skip rest with
      | ':' :: rest => do
        let (value, rest) ← readValue fuel (skip rest)
        let done := done.insert key value
        match skip rest with
        | '\x7d' :: rest => return (.table done.entries, rest)
        | ',' :: rest => readEntries done fuel (skip rest)
        | rest => throw ⟨"Expecting ',' delimiter", placeOf size rest⟩
      | rest => throw ⟨"Expecting ':' delimiter", placeOf size rest⟩
    | cs => .error ⟨"Expecting property name enclosed in double quotes", placeOf size cs⟩

end

end

def read (text : String) : Except Fault Json := do
  let cs := text.toList
  let (value, rest) ← readValue cs.length (2 * cs.length + 1) (skip cs)
  match skip rest with
  | [] => return value
  | rest => throw ⟨"Extra data", placeOf cs.length rest⟩

def lineBreak (indent : Nat) : String :=
  "\n" ++ String.ofList (List.replicate indent ' ')

def bracketed (opening closing : String) (indent : Nat) (items : List String) : String :=
  if items.isEmpty then opening ++ closing
  else
    opening ++ lineBreak (indent + 1) ++ ("," ++ lineBreak (indent + 1)).intercalate items ++
      lineBreak indent ++ closing

def insertByKey (k : String) (s : String) : List (String × String) → List (String × String)
  | [] => [(k, s)]
  | (j, t) :: rest => if k < j then (k, s) :: (j, t) :: rest else (j, t) :: insertByKey k s rest

mutual

def writeAt (indent : Nat) : Json → String
  | .null => "null"
  | .bool b => if b then "true" else "false"
  | .integer n => toString n
  | .real x => Decimal.interchange.write x
  | .string s => Text.quoted s
  | .list items => bracketed "[" "]" indent (writeItems (indent + 1) items)
  | .table entries =>
    bracketed "\x7b" "\x7d" indent
      ((writeEntries (indent + 1) entries).map fun e => Text.quoted e.1 ++ ": " ++ e.2)

def writeItems (indent : Nat) : List Json → List String
  | [] => []
  | j :: rest => writeAt indent j :: writeItems indent rest

def writeEntries (indent : Nat) : List (String × Json) → List (String × String)
  | [] => []
  | (k, j) :: rest => insertByKey k (writeAt indent j) (writeEntries indent rest)

end

def write (j : Json) : String := writeAt 0 j

mutual

def shown : Json → String
  | .null => "None"
  | .bool b => if b then "True" else "False"
  | .integer n => toString n
  | .real x => Decimal.plain.write x
  | .string s => Text.inQuotes s
  | .list items => "[" ++ ", ".intercalate (shownItems items) ++ "]"
  | .table entries => "\x7b" ++ ", ".intercalate (shownEntries entries) ++ "\x7d"

def shownItems : List Json → List String
  | [] => []
  | j :: rest => j.shown :: shownItems rest

def shownEntries : List (String × Json) → List String
  | [] => []
  | (k, j) :: rest => (Text.inQuotes k ++ ": " ++ j.shown) :: shownEntries rest

end

def plain : Json → String
  | .string s => s
  | j => j.shown

def isSet : Json → Bool
  | .null => false
  | .bool b => b
  | .integer n => n ≠ 0
  | .real x => x.significand ≠ 0 || x.isNaN || x.isInfinite
  | .string s => s ≠ ""
  | .list items => !items.isEmpty
  | .table entries => !entries.isEmpty

end Json

end Modelica
