import Modelica.Release.Describe
import Modelica.Release.Keywords
import Modelica.Release.Settings

set_option autoImplicit false

namespace Modelica.Release

structure Project where
  root : String
  files : OrderedMap String String
  told : List String := []

abbrev Work (α : Type) := EStateM Fault Project α

namespace Project

def say (line : String) : Work Unit :=
  modify fun p => { p with told := p.told ++ [line] }

def report {α : Type} (r : Report α) : Work α := fun p =>
  match r.run p.told with
  | .ok a told => .ok a { p with told }
  | .error e told => .error e { p with told }

def inquire {α : Type} (answers : List Answer) (q : Inquiry α) : Work α := fun p =>
  match q.run { answers, told := p.told } with
  | .ok a s => .ok a { p with told := s.told }
  | .error e s => .error e { p with told := s.told }

def ofExcept {α : Type} : Except Fault α → Work α
  | .ok a => pure a
  | .error e => throw e

def takeStep (before : List String) (step : String) : List String :=
  if step = "" || step = "." then before
  else if step = ".." then before.drop 1
  else step :: before

def plainPath (path : String) : String :=
  "/".intercalate ((Text.split '/' path).foldl takeStep []).reverse

def text? (p : Project) (path : String) : Option String :=
  (p.files.find? (plainPath path)).map fun s => String.ofList (Text.unifyLineEnds s.toList)

def hasFolder (p : Project) (path : String) : Bool :=
  let path := plainPath path
  path = "" || p.files.keys.any fun f => Text.startsWith f (path ++ "/")

def join (folder name : String) : String :=
  if folder = "" || Text.endsWith folder "/" then folder ++ name else folder ++ "/" ++ name

def put (path text : String) : Work Unit := do
  if !(← get).hasFolder (directory path) then throw (.noFile path)
  modify fun p => { p with files := p.files.insert (plainPath path) text }

def append (path text : String) : Work Unit := do
  put path (((← get).files.find? (plainPath path)).getD "" ++ text)

def checkRoot : Work Unit := do
  let p ← get
  if !(p.files.contains "setup.py" || p.files.contains "versioneer.py") then throw .badRoot

def settingsPath : String := "setup.cfg"

def settings : Work Settings := do
  let p ← get
  match p.text? settingsPath with
  | some text => ofExcept (Settings.read (join p.root settingsPath) text)
  | none => throw (.noFile (join p.root settingsPath))

def after? (mark : List Char) : List Char → Option (List Char)
  | [] => if mark.isEmpty then some [] else none
  | c :: cs =>
    if mark.isPrefixOf (c :: cs) then some ((c :: cs).drop mark.length) else after? mark cs

def before? (mark cs : List Char) : Option (List Char) :=
  (after? mark.reverse cs.reverse).map List.reverse

def dataStart : String := "version_json = '''\n"

def dataEnd : String := "'''  # END VERSION_JSON"

def versionData : Option String → Except Fault Json
  | none => .error (.notThisMethod "unable to read _version.py")
  | some text =>
    let cs := Text.unifyLineEnds text.toList
    match (after? dataStart.toList cs).bind (before? dataEnd.toList) with
    | none => .error (.notThisMethod "no version_json in _version.py")
    | some data =>
      match Json.read (String.ofList data) with
      | .ok j => .ok j
      | .error f => .error (.malformedData (f.message data))

def valueAt (j : Json) (key : String) : Except Fault Json :=
  match j with
  | .table entries =>
    match entries.lookup key with
    | some v => .ok v
    | none => .error (.missing key)
  | _ => .error .nothing

def valueAt? (j : Json) (key : String) : Except Fault Json :=
  match j with
  | .table entries => .ok ((entries.lookup key).getD .null)
  | _ => .error .noPart

def orElse {α : Type} (x y : Work α) : Work α :=
  tryCatch x fun e =>
    match e with
    | .notThisMethod _ => y
    | e => throw e

def noControl : List Answer := [⟨none, some 128⟩]

def versions (verbose : Bool) : Work Json := do
  checkRoot
  let settings ← settings
  if settings.control ≠ "git" then
    throw (.badSetting ("unrecognized VCS '" ++ settings.control ++ "'"))
  let verbose := verbose || (settings.verbose.getD "") ≠ ""
  let some source := settings.source
    | throw (.badSetting "please set versioneer.versionfile_source")
  let some tagStart := settings.tagStart
    | throw (.badSetting "please set versioneer.tag_prefix")
  let p ← get
  let file := p.text? source
  let found := fun (way : String) (j : Json) => do
    if verbose then say ("got version from " ++ way ++ " " ++ j.shown)
    return j
  let byKeywords : Work Json := do
    found "expanded keyword" (← report ((Keywords.ofFile file).info tagStart verbose)).json
  let byFile : Work Json := do
    found ("file " ++ join p.root source) (← ofExcept (versionData file))
  let byControl : Work Json := do
    let pieces ← inquire noControl (describe tagStart p.root verbose)
    found "VCS" (← ofExcept (pieces.render (some settings.style))).json
  let byFolder : Work Json := do
    let start := settings.folderStart.getD ""
    if start = "" then throw (.notThisMethod "")
    found "parentdir" (← report (fromParentFolder start p.root verbose)).json
  orElse byKeywords (orElse byFile (orElse byControl (orElse byFolder (do
    if verbose then say "unable to compute version"
    return unknownInfo.json))))

def version : Work Json := do
  ofExcept (valueAt (← versions false) "version")

def versionFile (data : Json) : String :=
  "\n# This file was generated by 'versioneer.py' (0.18) from\n" ++
    "# revision-control system data, or from the parent directory name of an\n" ++
    "# unpacked source archive. Distribution tarballs contain a pre-generated copy\n" ++
    "# of this file.\n\nimport json\n\n" ++
    dataStart ++ data.write ++ "\n" ++ dataEnd ++
    "\n\n\ndef get_versions():\n    return json.loads(version_json)\n"

def writeVersion (path : String) (data : Json) : Work Unit := do
  if !(← get).files.contains (plainPath path) then throw (.noFile path)
  put path (versionFile data)
  say ("set " ++ path ++ " to '" ++ (← ofExcept (valueAt data "version")).plain ++ "'")

def sampleSettings : String :=
  "\n# See the docstring in versioneer.py for instructions. Note that you must\n" ++
    "# re-run 'versioneer.py setup' after changing this section, and commit the\n" ++
    "# resulting files.\n\n[versioneer]\n#VCS = git\n#style = pep440\n" ++
    "#versionfile_source =\n#versionfile_build =\n#tag_prefix =\n#parentdir_prefix =\n\n"

def packageLines : String :=
  "\nfrom ._version import get_versions\n__version__ = get_versions()['version']\n" ++
    "del get_versions\n"

def sourceFile (settings : Settings) (source : String) : String :=
  let assign := fun (name value : String) => "    " ++ name ++ " = \"" ++ value ++ "\"\n"
  "\n\ndef get_keywords():\n" ++
    assign "git_refnames" "$Format:%d$" ++ assign "git_full" "$Format:%H$" ++
    assign "git_date" "$Format:%ci$" ++
    "    keywords = \x7b\"refnames\": git_refnames, \"full\": git_full, \"date\": git_date\x7d\n" ++
    "    return keywords\n\n\nclass VersioneerConfig:\n    pass\n\n\ndef get_config():\n" ++
    "    cfg = VersioneerConfig()\n" ++
    assign "cfg.VCS" "git" ++ assign "cfg.style" settings.style ++
    assign "cfg.tag_prefix" (settings.tagStart.getD "None") ++
    assign "cfg.parentdir_prefix" (settings.folderStart.getD "None") ++
    assign "cfg.versionfile_source" source ++
    "    cfg.verbose = False\n    return cfg\n"

def included (manifest : String) : List String :=
  ((Text.lines manifest).filter fun l => Text.startsWith l "include ").flatMap fun l =>
    (Text.words l).drop 1

def isMarked (attributes source : String) : Bool :=
  (Text.lines attributes).any fun l =>
    Text.startsWith (Text.trim l) source && ((Text.words l).drop 1).contains "export-subst"

def manifestPath : String := "MANIFEST.in"

def attributesPath : String := ".gitattributes"

def setUpPackage (source : String) : Work Unit := do
  let path := join (directory source) "__init__.py"
  match (← get).text? path with
  | some old =>
    if Text.contains old packageLines then say (" " ++ path ++ " unmodified")
    else
      say (" appending to " ++ path)
      append path packageLines
  | none => say (" " ++ path ++ " doesn't exist, ok")

def setUpManifest (source : String) : Work Unit := do
  let includes := included (((← get).text? manifestPath).getD "")
  if includes.contains "versioneer.py" then say " 'versioneer.py' already in MANIFEST.in"
  else
    say " appending 'versioneer.py' to MANIFEST.in"
    append manifestPath "include versioneer.py\n"
  if includes.contains source then say " versionfile_source already in MANIFEST.in"
  else
    say (" appending versionfile_source ('" ++ source ++ "') to MANIFEST.in")
    append manifestPath ("include " ++ source ++ "\n")

def setUpAttributes (source : String) : Work Unit := do
  if !isMarked (((← get).text? attributesPath).getD "") source then
    append attributesPath (source ++ " export-subst\n")

def setUpWith (settings : Settings) : Work Unit := do
  say (" creating " ++ settings.source.getD "None")
  let some source := settings.source | throw .nothing
  put source ""
  if settings.control ≠ "git" then throw (.missing settings.control)
  put source (sourceFile settings source)
  setUpPackage source
  setUpManifest source
  setUpAttributes source

def setUp : Work Nat := do
  checkRoot
  let found : Option Settings ← tryCatch (some <$> settings) fun e => do
    match e with
    | .noFile _ | .noSection _ =>
      append settingsPath sampleSettings
      return none
    | .noOption _ _ => return none
    | e => throw e
  match found with
  | none => return 1
  | some settings =>
    setUpWith settings
    return 0

def scan (script : String) : Report Nat := do
  let has := fun (part : String) => Text.contains script part
  let complete := has "import versioneer" && has "versioneer.get_cmdclass()" &&
    has "versioneer.get_version()"
  let setters := has "versioneer.VCS" || has "versioneer.versionfile_source"
  if !complete then
    for line in ["", "Your setup.py appears to be missing some important items",
        "(but I might be wrong). Please make sure it has something",
        "roughly like the following:", "", " import versioneer",
        " setup( version=versioneer.get_version(),",
        "        cmdclass=versioneer.get_cmdclass(),  ...)", ""] do
      Release.say line
  if setters then
    for line in ["You should remove lines like 'versioneer.VCS = ' and",
        "'versioneer.versionfile_source = ' . This configuration",
        "now lives in setup.cfg, and should be removed from setup.py", ""] do
      Release.say line
  return (if complete then 0 else 1) + (if setters then 1 else 0)

def commandNames : List String := ["build_py", "sdist", "version"]

def tellVersion : Work Unit := do
  let found ← versions true
  let version ← ofExcept (valueAt found "version")
  say ("Version: " ++ version.plain)
  for (label, key) in [("full-revisionid", "full-revisionid"), ("dirty", "dirty"),
      ("date", "date")] do
    say (" " ++ label ++ ": " ++ (← ofExcept (valueAt? found key)).plain)
  let error ← ofExcept (valueAt found "error")
  if error.isSet then say (" error: " ++ error.plain)

def updateVersion (path : String) (data : Json) : Work Unit := do
  say ("UPDATING " ++ path)
  writeVersion path data

def modulesOf (p : Project) (package : String) : List (String × String) :=
  let folder := Text.replace package "." "/"
  p.files.entries.filter fun e => directory e.1 = folder && Text.endsWith e.1 ".py"

def copyInto (folder : String) (files : List (String × String)) : Work Unit :=
  modify fun p => { p with
    files := files.foldl (fun m e => m.insert (folder ++ "/" ++ e.1) e.2) p.files }

def buildFolder : String := "build/lib"

def build (packages : List String) : Work Unit := do
  checkRoot
  let settings ← settings
  let found ← versions false
  let p ← get
  copyInto buildFolder (packages.flatMap (modulesOf p))
  match settings.build with
  | some path => if path ≠ "" then updateVersion (join buildFolder path) found
  | none => pure ()

def release (folder : String) : Work Unit := do
  let found ← versions false
  checkRoot
  let settings ← settings
  copyInto folder (← get).files.entries
  match settings.source with
  | some source => updateVersion (join folder source) found
  | none => throw .nothing

end Project

end Modelica.Release
