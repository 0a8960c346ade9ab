import Modelica.Release

set_option autoImplicit false

namespace Modelica.Release

structure Call where
  commands : List String
  arguments : List String
  folder : String
  hidden : Bool
deriving DecidableEq, Repr

structure Answer where
  output : Option String
  code : Option Int
deriving DecidableEq, Repr

structure Session where
  answers : List Answer
  calls : List Call := []
  told : List String := []

abbrev Inquiry (α : Type) := EStateM Fault Session α

namespace Inquiry

def tell (line : String) : Inquiry Unit :=
  modify fun s => { s with told := s.told ++ [line] }

def ask (root : String) (hidden : Bool) (arguments : List String) : Inquiry Answer := do
  let s ← get
  let calls := s.calls ++ [⟨["git"], arguments, root, hidden⟩]
  match s.answers with
  | [] =>
    set { s with calls }
    throw .outOfRange
  | answer :: answers =>
    set { s with answers, calls }
    return answer

end Inquiry

def handlerNames : List String := ["get_keywords", "keywords", "pieces_from_vcs"]

def isNumeral : List Char → Bool
  | [] => false
  | [c] => c.isDigit
  | c :: '_' :: rest => c.isDigit && isNumeral rest
  | c :: rest => c.isDigit && isNumeral rest

def readInteger (text : String) : Except Fault Int :=
  let cs := (Text.trim text).toList
  let (negative, digits) :=
    match cs with
    | '-' :: rest => (true, rest)
    | '+' :: rest => (false, rest)
    | cs => (false, cs)
  if isNumeral digits then
    let n : Int := Decimal.digitsValue (digits.filter (· ≠ '_'))
    .ok (if negative then -n else n)
  else .error (.badInteger text)

structure Description where
  tag : String
  distance : Nat
  commit : String
deriving DecidableEq, Repr

def isCommitDigit (c : Char) : Bool :=
  c.isDigit || ('a' ≤ c && c ≤ 'f')

def Description.read? (text : String) : Option Description :=
  match (Text.split '-' text).reverse with
  | last :: distance :: first :: rest =>
    let tag := "-".intercalate (first :: rest).reverse
    match last.toList with
    | 'g' :: hex =>
      if !hex.isEmpty && hex.all isCommitDigit && distance ≠ "" &&
          distance.toList.all Char.isDigit && tag ≠ "" && !tag.toList.contains '\n' then
        some ⟨tag, Decimal.digitsValue distance.toList, String.ofList hex⟩
      else none
    | _ => none
  | _ => none

def dirtyMark : String := "-dirty"

def Answer.expect (a : Answer) (reason : String) : Inquiry String :=
  match a.output with
  | some s => pure (Text.trim s)
  | none => throw (.notThisMethod reason)

def commitDate (root : String) : Inquiry String := do
  match (← Inquiry.ask root false ["show", "-s", "--format=%ci", "HEAD"]).output with
  | some s => return isoDate s
  | none => throw .noPart

def commitCount (root : String) : Inquiry Int := do
  match (← Inquiry.ask root false ["rev-list", "HEAD", "--count"]).output with
  | some s =>
    match readInteger s with
    | .ok n => return n
    | .error e => throw e
  | none => throw .nothing

def describe (tagStart root : String) (verbose : Bool) : Inquiry Pieces := do
  if (← Inquiry.ask root true ["rev-parse", "--git-dir"]).code ≠ some 0 then
    if verbose then Inquiry.tell ("Directory " ++ root ++ " not under git control")
    throw (.notThisMethod "'git rev-parse --git-dir' returned error")
  let described ← Inquiry.ask root false
    ["describe", "--tags", "--dirty", "--always", "--long", "--match", tagStart ++ "*"]
  let described ← described.expect "'git describe' failed"
  let long ← (← Inquiry.ask root false ["rev-parse", "HEAD"]).expect "'git rev-parse' failed"
  let dirty := Text.endsWith described dirtyMark
  let clean :=
    if dirty then String.ofList (described.toList.take (described.length - dirtyMark.length))
    else described
  let pieces : Pieces := {
    long := .given long, short := .given (String.ofList (long.toList.take 7))
    error := .null, dirty := .given dirty }
  if Text.contains clean "-" then
    match Description.read? clean with
    | none =>
      return { pieces with
        error := .given ("unable to parse git-describe output: '" ++ described ++ "'") }
    | some d =>
      if Text.startsWith d.tag tagStart then
        let date ← commitDate root
        return { pieces with
          closestTag := .given (String.ofList (d.tag.toList.drop tagStart.length))
          distance := .given d.distance, short := .given d.commit, date := .given date }
      else
        let text := "tag '" ++ d.tag ++ "' doesn't start with prefix '" ++ tagStart ++ "'"
        if verbose then Inquiry.tell text
        return { pieces with error := .given text }
  else
    let count ← commitCount root
    let date ← commitDate root
    return { pieces with
      closestTag := .null, distance := .given count, date := .given date }

end Modelica.Release
