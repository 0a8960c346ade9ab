import Modelica.Folder
import Modelica.Library.Flatten
import Modelica.Outline.Text

set_option autoImplicit false

namespace Modelica.Command

structure Switch where
  short : Char
  long : String
  value : Option String
  help : Option String
deriving DecidableEq, Repr

def help : Switch := ⟨'h', "help", none, some "show this help message and exit"⟩

def casadi : Switch := ⟨'c', "casadi", some "CASADI_FOLDER", some "CasADi installation folder"⟩

def flattenOnly : Switch := ⟨'f', "flatten_only", none, none⟩

def verbose : Switch := ⟨'v', "verbose", none, none⟩

def switches : List Switch := [help, casadi, flattenOnly, verbose]

namespace Switch

def shortForm (s : Switch) : String := "-" ++ s.short.toString

def longForm (s : Switch) : String := "--" ++ s.long

end Switch

inductive Fault where
  | argumentCount
  | unknown (written : String)
  | ambiguous (written : String) (candidates : List String)
  | missingValue (written : String)
  | needlessValue (written : String)
deriving DecidableEq, Repr

def Fault.message : Fault → String
  | argumentCount => "incorrect number of arguments"
  | unknown written => "no such option: " ++ written
  | ambiguous written candidates =>
    "ambiguous option: " ++ written ++ " (" ++ ", ".intercalate candidates ++ "?)"
  | missingValue written => written ++ " option requires 1 argument"
  | needlessValue written => written ++ " option does not take a value"

structure Settings where
  casadiFolder : Option String := none
  flattenOnly : Bool := false
  verbose : Bool := false
deriving DecidableEq, Repr

inductive Request where
  | help
  | refuse (fault : Fault)
  | compile (settings : Settings) (folder className : String)
deriving DecidableEq, Repr

def Settings.set (settings : Settings) (s : Switch) (value : String) : Settings :=
  if s = casadi then { settings with casadiFolder := some value }
  else if s = Command.flattenOnly then { settings with flattenOnly := true }
  else if s = Command.verbose then { settings with verbose := true }
  else settings

inductive Effect where
  | plain
  | stop (request : Request)
  | go (changes : List (Switch × String))
  | wait (changes : List (Switch × String)) (last : Switch) (written : String)

def shortEffect (changes : List (Switch × String)) : List Char → Effect
  | [] => .go changes
  | c :: rest =>
    match switches.find? fun s => s.short = c with
    | none => .stop (.refuse (.unknown ("-" ++ c.toString)))
    | some s =>
      if s = help then .stop .help
      else if s.value.isSome then
        if rest.isEmpty then .wait changes s s.shortForm
        else .go (changes ++ [(s, String.ofList rest)])
      else shortEffect (changes ++ [(s, "")]) rest

def insertWord (w : String) : List String → List String
  | [] => [w]
  | v :: rest => if w < v then w :: v :: rest else v :: insertWord w rest

def matchLong (written : String) : Except Fault Switch :=
  match switches.find? fun s => s.longForm = written with
  | some s => .ok s
  | none =>
    match switches.filter fun s => Text.startsWith s.longForm written with
    | [] => .error (.unknown written)
    | [s] => .ok s
    | several =>
      .error (.ambiguous written ((several.map (·.longForm)).foldr insertWord []))

def longEffect (argument : String) : Effect :=
  let cs := argument.toList
  let written := String.ofList (cs.takeWhile (· ≠ '='))
  let value := (cs.dropWhile (· ≠ '=')).drop 1
  match matchLong written with
  | .error fault => .stop (.refuse fault)
  | .ok s =>
    if s.value.isSome then
      if cs.contains '=' then .go [(s, String.ofList value)] else .wait [] s s.longForm
    else if cs.contains '=' then .stop (.refuse (.needlessValue s.longForm))
    else if s = help then .stop .help
    else .go [(s, "")]

def effect (argument : String) : Effect :=
  match argument.toList with
  | '-' :: '-' :: _ => longEffect argument
  | '-' :: c :: rest => shortEffect [] (c :: rest)
  | _ => .plain

def Settings.setAll (settings : Settings) (changes : List (Switch × String)) : Settings :=
  changes.foldl (fun settings c => settings.set c.1 c.2) settings

def finish (settings : Settings) : List String → Request
  | [folder, className] => .compile settings folder className
  | _ => .refuse .argumentCount

def readFrom (settings : Settings) (plain : List String) : List String → Request
  | [] => finish settings plain
  | argument :: rest =>
    if argument = "--" then finish settings (plain ++ rest)
    else
      match effect argument with
      | .plain => readFrom settings (plain ++ [argument]) rest
      | .stop request => request
      | .go changes => readFrom (settings.setAll changes) plain rest
      | .wait changes last written =>
        match rest with
        | [] => .refuse (.missingValue written)
        | value :: rest => readFrom (settings.setAll (changes ++ [(last, value)])) plain rest

def read (arguments : List String) : Request :=
  readFrom {} [] arguments

def usage (program : String) : String :=
  "Usage: " ++ program ++ " [options] MODEL_FOLDER MODEL_NAME\n"

def refusal (program : String) (fault : Fault) : String :=
  usage program ++ "\n" ++ program ++ ": error: " ++ fault.message ++ "\n"

def spaces (n : Nat) : String := String.ofList (List.replicate n ' ')

def helpColumn : Nat := 24

def Switch.forms (s : Switch) : String :=
  match s.value with
  | none => s.shortForm ++ ", " ++ s.longForm
  | some v => s.shortForm ++ " " ++ v ++ ", " ++ s.longForm ++ "=" ++ v

def Switch.explained (s : Switch) : String :=
  let width := helpColumn - 4
  let length := s.forms.toList.length
  let explanation := s.help.getD ""
  if length ≤ width then
    "  " ++ s.forms ++ spaces (width - length) ++ "  " ++ explanation ++ "\n"
  else if explanation = "" then "  " ++ s.forms ++ "\n"
  else "  " ++ s.forms ++ "\n" ++ spaces helpColumn ++ explanation ++ "\n"

def helpText (program : String) : String :=
  usage program ++ "\nOptions:\n" ++ String.join (switches.map Switch.explained)

inductive Level where
  | info
  | warning
deriving DecidableEq, Repr

structure Compilation where
  log : List (Level × String)
  text : String
deriving Repr

def flattenFolder (folder : Folder) (className : String) : Except Error Compilation :=
  let files := folder.modelFiles
  let told := files.map (fun f => (Level.info, "Parsing " ++ f.1)) ++ [(.info, "Flattening")]
  let flat : Build ClassId := do
    if files.isEmpty then throw .notApplicable
    let root ← Build.defineAll (files.map (·.2))
    Build.flatten root (ComponentRef.ofText className)
  match flat.run {} with
  | .error e _ => .error e
  | .ok c lib => do
    let text ← Outline.label (lib.outlineOf (.class_ c))
    return ⟨told ++ lib.warnings.toList.map fun w => (.warning, w), text ++ "\n"⟩

end Modelica.Command
