import Modelica.Text

set_option autoImplicit false

namespace Modelica.Text

-- The characters with the property of white space, and the four separators of ASCII.
def isBlank (c : Char) : Bool :=
  let n := c.toNat
  (9 ≤ n && n ≤ 13) || (28 ≤ n && n ≤ 32) || n = 0x85 || n = 0xA0 || n = 0x1680 ||
    (0x2000 ≤ n && n ≤ 0x200A) || n = 0x2028 || n = 0x2029 || n = 0x202F || n = 0x205F ||
    n = 0x3000

def dropEnd (p : Char → Bool) (cs : List Char) : List Char :=
  (cs.reverse.dropWhile p).reverse

def trimWhile (p : Char → Bool) (s : String) : String :=
  String.ofList (dropEnd p (s.toList.dropWhile p))

def trim (s : String) : String :=
  trimWhile isBlank s

def wordsFrom (word : List Char) : List Char → List String
  | [] => if word.isEmpty then [] else [String.ofList word.reverse]
  | c :: cs =>
    if isBlank c then
      if word.isEmpty then wordsFrom [] cs else String.ofList word.reverse :: wordsFrom [] cs
    else wordsFrom (c :: word) cs

def words (s : String) : List String :=
  wordsFrom [] s.toList

def unifyLineEnds : List Char → List Char
  | [] => []
  | '\r' :: '\n' :: cs => '\n' :: unifyLineEnds cs
  | c :: cs => (if c = '\r' then '\n' else c) :: unifyLineEnds cs

def lines (s : String) : List String :=
  let parts := split '\n' (String.ofList (unifyLineEnds s.toList))
  if parts.getLast? = some "" then parts.dropLast else parts

def replaceFirst (old : Char) (new : List Char) (cs : List Char) : List Char :=
  cs.takeWhile (· ≠ old) ++
    match cs.dropWhile (· ≠ old) with
    | [] => []
    | _ :: rest => new ++ rest

end Modelica.Text
