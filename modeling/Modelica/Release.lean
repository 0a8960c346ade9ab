import Modelica.Json
import Modelica.Text.Blank

set_option autoImplicit false

namespace Modelica.Release

inductive Fault where
  | notThisMethod (reason : String)
  | missing (key : String)
  | nothing
  | noPart
  | outOfRange
  | unknownStyle (style : String)
  | badInteger (text : String)
  | badRoot
  | badSetting (text : String)
  | noSection (name : String)
  | noOption (option section_ : String)
  | noSectionHeader (source : String) (line : Nat) (text : String)
  | duplicateSection (source : String) (line : Nat) (name : String)
  | duplicateOption (source : String) (line : Nat) (section_ option : String)
  | badLines (source : String) (lines : List (Nat × String))
  | badInterpolation (text : String)
  | unknownReference (option section_ key raw : String)
  | endlessInterpolation (option section_ raw : String)
  | malformedData (message : String)
  | noFile (path : String)
deriving DecidableEq, Repr, Inhabited

namespace Fault

def place (line : Nat) : String :=
  "[line " ++ (if line < 10 then " " else "") ++ toString line ++ "]: "

def whileReading (source : String) (line : Nat) : String :=
  "While reading from " ++ Text.inQuotes source ++ " " ++ place line

def message : Fault → String
  | notThisMethod reason => reason
  | missing key => key
  | nothing | noPart | outOfRange => ""
  | unknownStyle style => "unknown style '" ++ style ++ "'"
  | badInteger text => "invalid literal for int() with base 10: " ++ Text.inQuotes text
  | badRoot =>
    "Versioneer was unable to run the project root directory. " ++
      "Versioneer requires setup.py to be executed from " ++
      "its immediate directory (like 'python setup.py COMMAND'), " ++
      "or in a way that lets it use sys.argv[0] to find the root " ++
      "(like 'python path/to/setup.py COMMAND')."
  | badSetting text => text
  | noSection name => "No section: " ++ Text.inQuotes name
  | noOption option section_ =>
    "No option " ++ Text.inQuotes option ++ " in section: " ++ Text.inQuotes section_
  | noSectionHeader source line text =>
    "File contains no section headers.\nfile: " ++ Text.inQuotes source ++ ", line: " ++
      toString line ++ "\n" ++ Text.inQuotes text
  | duplicateSection source line name =>
    whileReading source line ++ "section " ++ Text.inQuotes name ++ " already exists"
  | duplicateOption source line section_ option =>
    whileReading source line ++ "option " ++ Text.inQuotes option ++ " in section " ++
      Text.inQuotes section_ ++ " already exists"
  | badLines source lines =>
    "Source contains parsing errors: " ++ Text.inQuotes source ++
      String.join (lines.map fun e => "\n\t" ++ place e.1 ++ Text.inQuotes e.2)
  | badInterpolation text => text
  | unknownReference option section_ key raw =>
    "Bad value substitution: option " ++ Text.inQuotes option ++ " in section " ++
      Text.inQuotes section_ ++ " contains an interpolation key " ++ Text.inQuotes key ++
      " which is not a valid option name. Raw value: " ++ Text.inQuotes raw
  | endlessInterpolation option section_ raw =>
    "Recursion limit exceeded in value substitution: option " ++ Text.inQuotes option ++
      " in section " ++ Text.inQuotes section_ ++
      " contains an interpolation key which cannot be substituted in 10 steps. Raw value: " ++
      Text.inQuotes raw
  | malformedData message => message
  | noFile path => "[Errno 2] No such file or directory: " ++ Text.inQuotes path

end Fault

inductive Field (α : Type) where
  | absent
  | null
  | given (a : α)
deriving DecidableEq, Repr

namespace Field

variable {α : Type}

def need (key : String) : Field α → Except Fault (Option α)
  | absent => .error (.missing key)
  | null => .ok none
  | given a => .ok (some a)

def get? : Field α → Option α
  | given a => some a
  | _ => none

def ofOption : Option α → Field α
  | some a => given a
  | none => null

end Field

structure Pieces where
  closestTag : Field String := .absent
  distance : Field Int := .absent
  short : Field String := .absent
  long : Field String := .absent
  dirty : Field Bool := .absent
  error : Field String := .absent
  date : Field String := .absent
deriving DecidableEq, Repr

structure Info where
  version : Option String
  revision : Option String
  dirty : Option Bool
  error : Option String
  date : Option String
deriving DecidableEq, Repr

def optionalJson {α : Type} (f : α → Json) : Option α → Json
  | some a => f a
  | none => .null

def Info.json (i : Info) : Json :=
  .table [
    ("version", optionalJson .string i.version),
    ("full-revisionid", optionalJson .string i.revision),
    ("dirty", optionalJson .bool i.dirty),
    ("error", optionalJson .string i.error),
    ("date", optionalJson .string i.date)]

namespace Pieces

def tag (p : Pieces) : Except Fault (Option String) := do
  return (← p.closestTag.need "closest-tag").filter (· ≠ "")

def isMoved (p : Pieces) : Except Fault Bool := do
  match ← p.distance.need "distance" with
  | some n => return n ≠ 0
  | none => return false

def isDirty (p : Pieces) : Except Fault Bool := do
  return (← p.dirty.need "dirty").getD false

def isChanged (p : Pieces) : Except Fault Bool := do
  if ← p.isMoved then return true
  p.isDirty

def distanceText (p : Pieces) : Except Fault String := do
  match ← p.distance.need "distance" with
  | some n => return toString n
  | none => throw .nothing

def shortText (p : Pieces) : Except Fault String := do
  return (← p.short.need "short").getD "None"

def place (p : Pieces) (between : String) : Except Fault String := do
  let n ← p.distance.need "distance"
  let s ← p.shortText
  match n with
  | some n => return toString n ++ between ++ s
  | none => throw .nothing

def separator (p : Pieces) : Except Fault String :=
  match p.closestTag with
  | .absent => .ok "+"
  | .null => .error .nothing
  | .given tag => .ok (if Text.contains tag "+" then "." else "+")

def mark (p : Pieces) (text : String) : Except Fault String := do
  return if ← p.isDirty then text else ""

end Pieces

inductive Style where
  | pep440
  | pep440Pre
  | pep440Post
  | pep440Old
  | gitDescribe
  | gitDescribeLong
deriving DecidableEq, Repr

namespace Style

def ofName? : Option String → Except Fault Style
  | none => .ok .pep440
  | some name =>
    match name with
    | "" | "default" | "pep440" => .ok .pep440
    | "pep440-pre" => .ok .pep440Pre
    | "pep440-post" => .ok .pep440Post
    | "pep440-old" => .ok .pep440Old
    | "git-describe" => .ok .gitDescribe
    | "git-describe-long" => .ok .gitDescribeLong
    | _ => .error (.unknownStyle name)

end Style

namespace Pieces

-- `TAG[+DISTANCE.gHEX[.dirty]]`, or `0+untagged.DISTANCE.gHEX[.dirty]`.
def pep440 (p : Pieces) : Except Fault String := do
  match ← p.tag with
  | some tag =>
    if ← p.isChanged then
      return tag ++ (← p.separator) ++ (← p.place ".g") ++ (← p.mark ".dirty")
    else return tag
  | none => return "0+untagged." ++ (← p.place ".g") ++ (← p.mark ".dirty")

def pep440Pre (p : Pieces) : Except Fault String := do
  match ← p.tag with
  | some tag =>
    if ← p.isMoved then return tag ++ ".post.dev" ++ (← p.distanceText) else return tag
  | none => return "0.post.dev" ++ (← p.distanceText)

-- `TAG[.postDISTANCE[.dev0]+gHEX]`, or `0.postDISTANCE[.dev0]+gHEX`.
def pep440Post (p : Pieces) : Except Fault String := do
  match ← p.tag with
  | some tag =>
    if ← p.isChanged then
      return tag ++ ".post" ++ (← p.distanceText) ++ (← p.mark ".dev0") ++ (← p.separator) ++
        "g" ++ (← p.shortText)
    else return tag
  | none =>
    return "0.post" ++ (← p.distanceText) ++ (← p.mark ".dev0") ++ "+g" ++ (← p.shortText)

def pep440Old (p : Pieces) : Except Fault String := do
  match ← p.tag with
  | some tag =>
    if ← p.isChanged then return tag ++ ".post" ++ (← p.distanceText) ++ (← p.mark ".dev0")
    else return tag
  | none => return "0.post" ++ (← p.distanceText) ++ (← p.mark ".dev0")

-- `TAG[-DISTANCE-gHEX][-dirty]`, or `HEX[-dirty]`. The long form always has the distance.
def described (p : Pieces) (long : Bool) : Except Fault (Option String) := do
  let start : Option String ←
    match ← p.tag with
    | some tag => do
      let full ← if long then pure true else p.isMoved
      if full then pure (some (tag ++ "-" ++ (← p.place "-g"))) else pure (some tag)
    | none => p.short.need "short"
  if ← p.isDirty then
    match start with
    | some s => return some (s ++ "-dirty")
    | none => throw .nothing
  else return start

def styled (p : Pieces) : Style → Except Fault (Option String)
  | .pep440 => some <$> p.pep440
  | .pep440Pre => some <$> p.pep440Pre
  | .pep440Post => some <$> p.pep440Post
  | .pep440Old => some <$> p.pep440Old
  | .gitDescribe => p.described false
  | .gitDescribeLong => p.described true

def render (p : Pieces) (style : Option String) : Except Fault Info := do
  match (← p.error.need "error").filter (· ≠ "") with
  | some e =>
    return {
      version := some "unknown", revision := p.long.get?
      dirty := none, error := some e, date := none }
  | none =>
    let version ← p.styled (← Style.ofName? style)
    let revision ← p.long.need "long"
    let dirty ← p.dirty.need "dirty"
    return { version, revision, dirty, error := none, date := p.date.get? }

end Pieces

abbrev Report (α : Type) := EStateM Fault (List String) α

def say (line : String) : Report Unit :=
  modify (· ++ [line])

def isoDate (s : String) : String :=
  String.ofList (Text.replaceFirst ' ' [] (Text.replaceFirst ' ' ['T'] (Text.trim s).toList))

def unknownInfo : Info :=
  { version := some "0+unknown", revision := none, dirty := none
    error := some "unable to compute version", date := none }

def baseName (path : String) : String :=
  String.ofList (path.toList.reverse.takeWhile (· ≠ '/')).reverse

def directory (path : String) : String :=
  let head := (path.toList.reverse.dropWhile (· ≠ '/')).reverse
  if head.all (· = '/') then String.ofList head else String.ofList (Text.dropEnd (· = '/') head)

def fromFolderName (start : String) (verbose : Bool) (tried : List String) (root : String) :
    Nat → Report Info
  | 0 => do
    if verbose then
      say ("Tried directories " ++ Text.quotedList tried ++ " but none started with prefix " ++
        start)
    throw (.notThisMethod "rootdir doesn't start with parentdir_prefix")
  | levels + 1 =>
    let name := baseName root
    if Text.startsWith name start then
      return {
        version := some (String.ofList (name.toList.drop start.length)), revision := none
        dirty := some false, error := none, date := none }
    else fromFolderName start verbose (tried ++ [root]) (directory root) levels

def fromParentFolder (start root : String) (verbose : Bool) : Report Info :=
  fromFolderName start verbose [] root 3

end Modelica.Release
