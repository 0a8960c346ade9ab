import Modelica.Release

set_option autoImplicit false

namespace Modelica.Release

structure SettingsFile where
  sections : OrderedMap String (OrderedMap String String)
  defaults : OrderedMap String String

namespace SettingsFile

def defaultSection : String := "DEFAULT"

structure Reader where
  sections : OrderedMap String (OrderedMap String (List String)) := .empty
  defaults : OrderedMap String (List String) := .empty
  current : Option String := none
  option : Option String := none
  indent : Nat := 0
  seen : List (String × String) := []
  bad : List (Nat × String) := []

namespace Reader

def update (r : Reader) (name : String)
    (f : OrderedMap String (List String) → OrderedMap String (List String)) : Reader :=
  if name = defaultSection then { r with defaults := f r.defaults }
  else { r with sections := r.sections.insert name (f ((r.sections.find? name).getD .empty)) }

def isOpen (r : Reader) : Bool :=
  r.current.isSome && (r.option.getD "") ≠ ""

def extend (r : Reader) (value : String) : Reader :=
  r.update (r.current.getD "") fun m =>
    let option := r.option.getD ""
    m.insert option ((m.find? option).getD [] ++ [value])

def header? (value : List Char) : Option String :=
  match value with
  | '[' :: rest =>
    let upTo := Text.dropEnd (· ≠ ']') rest
    if upTo.length ≤ 1 then none else some (String.ofList upTo.dropLast)
  | _ => none

def isDelimiter (c : Char) : Bool := c = '=' || c = ':'

def optionName (s : String) : String := (Text.trim s).toLower

def enterSection (r : Reader) (source : String) (line : Nat) (name : String) :
    Except Fault Reader :=
  if r.sections.contains name then .error (.duplicateSection source line name)
  else
    let r := { r with current := some name, option := none }
    .ok (if name = defaultSection then r else r.update name id)

def enterOption (r : Reader) (source : String) (line : Nat) (current : String)
    (raw value : List Char) : Except Fault Reader :=
  let written := value.takeWhile fun c => !isDelimiter c
  if value.any isDelimiter then
    let option := optionName (String.ofList written)
    let r := if option = "" then { r with bad := r.bad ++ [(line, String.ofList raw)] } else r
    if r.seen.contains (current, option) then
      .error (.duplicateOption source line current option)
    else
      let text := Text.trim (String.ofList (value.drop (written.length + 1)))
      let r := { r with seen := (current, option) :: r.seen, option := some option }
      .ok (r.update current fun m => m.insert option [text])
  else .ok { r with bad := r.bad ++ [(line, String.ofList raw)] }

def isComment (value : List Char) : Bool :=
  value.head? = some '#' || value.head? = some ';'

def step (r : Reader) (source : String) (line : Nat) (raw : List Char) : Except Fault Reader :=
  let value := (Text.trim (String.ofList raw)).toList
  if isComment value then .ok r
  else if value.isEmpty then .ok (if r.isOpen then r.extend "" else r)
  else
    let indent := (raw.takeWhile Text.isBlank).length
    if r.isOpen && r.indent < indent then .ok (r.extend (String.ofList value))
    else
      let r := { r with indent }
      match header? value, r.current with
      | some name, _ => r.enterSection source line name
      | none, none => .error (.noSectionHeader source line (String.ofList raw))
      | none, some current => r.enterOption source line current raw value

def steps (source : String) : Nat → Reader → List (List Char) → Except Fault Reader
  | _, r, [] => .ok r
  | line, r, raw :: rest => do steps source (line + 1) (← r.step source line raw) rest

end Reader

def linesWithEnds (s : String) : List (List Char) :=
  let cs := Text.unifyLineEnds s.toList
  let parts := Text.splitChars '\n' cs
  let full := parts.dropLast.map (· ++ ['\n'])
  match parts.getLast? with
  | some last => if last.isEmpty then full else full ++ [last]
  | none => full

def joined (m : OrderedMap String (List String)) : OrderedMap String String :=
  ⟨m.entries.map fun e =>
    (e.1, String.ofList (Text.dropEnd Text.isBlank ("\n".intercalate e.2).toList))⟩

def read (source text : String) : Except Fault SettingsFile := do
  let r ← Reader.steps source 1 {} (linesWithEnds text)
  if !r.bad.isEmpty then throw (.badLines source r.bad)
  return ⟨⟨r.sections.entries.map fun e => (e.1, joined e.2)⟩, joined r.defaults⟩

def raw? (f : SettingsFile) (section_ option : String) : Option String :=
  match f.sections.find? section_ with
  | none => none
  | some m => m.find? option <|> f.defaults.find? option

def resolveWith (f : SettingsFile) (section_ option raw : String)
    (deeper : List Char → Except Fault (List Char)) :
    Nat → List Char → Except Fault (List Char)
  | 0, _ => .ok []
  | _, [] => .ok []
  | fuel + 1, c :: cs =>
    if c ≠ '%' then do return c :: (← resolveWith f section_ option raw deeper fuel cs)
    else
      match cs with
      | '%' :: rest => do return '%' :: (← resolveWith f section_ option raw deeper fuel rest)
      | '(' :: rest =>
        let key := rest.takeWhile (· ≠ ')')
        match rest.drop key.length with
        | ')' :: 's' :: after => do
          if key.isEmpty then
            throw (.badInterpolation
              ("bad interpolation variable reference " ++ Text.inQuotes (String.ofList (c :: cs))))
          let name := (String.ofList key).toLower
          match f.raw? section_ name with
          | none => throw (.unknownReference option section_ name raw)
          | some v =>
            let v ← if v.toList.contains '%' then deeper v.toList else pure v.toList
            return v ++ (← resolveWith f section_ option raw deeper fuel after)
        | _ =>
          .error (.badInterpolation
            ("bad interpolation variable reference " ++ Text.inQuotes (String.ofList (c :: cs))))
      | _ =>
        .error (.badInterpolation
          ("'%' must be followed by '%' or '(', found: " ++
            Text.inQuotes (String.ofList (c :: cs))))

def resolve (f : SettingsFile) (section_ option raw : String) :
    Nat → List Char → Except Fault (List Char)
  | 0, _ => .error (.endlessInterpolation option section_ raw)
  | depth + 1, cs =>
    resolveWith f section_ option raw (resolve f section_ option raw depth) (cs.length + 1) cs

def depthLimit : Nat := 10

def get? (f : SettingsFile) (section_ option : String) : Except Fault (Option String) :=
  match f.raw? section_ option with
  | none => .ok none
  | some raw => do
    return some (String.ofList (← f.resolve section_ option raw depthLimit raw.toList))

def get (f : SettingsFile) (section_ option : String) : Except Fault String := do
  if !f.sections.contains section_ then throw (.noSection section_)
  match ← f.get? section_ option with
  | some s => return s
  | none => throw (.noOption option section_)

end SettingsFile

structure Settings where
  control : String
  style : String
  source : Option String
  build : Option String
  tagStart : Option String
  folderStart : Option String
  verbose : Option String
deriving DecidableEq, Repr

namespace Settings

def sectionName : String := "versioneer"

def read (source text : String) : Except Fault Settings := do
  let f ← SettingsFile.read source text
  let control ← f.get sectionName "vcs"
  let option := f.get? sectionName
  let style ← option "style"
  let sourceFile ← option "versionfile_source"
  let build ← option "versionfile_build"
  let tagStart ← option "tag_prefix"
  let folderStart ← option "parentdir_prefix"
  let verbose ← option "verbose"
  return {
    control, style := style.getD "", source := sourceFile, build, folderStart, verbose
    tagStart := tagStart.map fun s => if s = "''" || s = "\"\"" then "" else s }

def own : Settings where
  control := "git"
  style := "pep440"
  source := some "src/pymoca/_version.py"
  build := none
  tagStart := some ""
  folderStart := some "pymoca-"
  verbose := none

end Settings

end Modelica.Release
