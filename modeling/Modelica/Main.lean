import Modelica.Command

set_option autoImplicit false

namespace Modelica

partial def readFolder (path : String) : IO Folder := do
  let mut files := []
  let mut folders := []
  for entry in ← (← IO.FS.realPath path).readDir do
    if ← entry.path.isDir then
      folders := folders ++ [(entry.fileName, ← readFolder entry.path.toString)]
    else if Folder.isModelFile entry.fileName then
      files := files ++ [(entry.fileName, ← IO.FS.readFile entry.path)]
  return ⟨files, folders⟩

def Command.Level.label : Command.Level → String
  | .info => "INFO"
  | .warning => "WARNING"

def Command.flattenPath (path className : String) : IO UInt32 := do
  let folder ← try readFolder path catch _ => pure .empty
  match Command.flattenFolder folder className with
  | .ok compilation =>
    for (level, text) in compilation.log do IO.eprintln (level.label ++ ": " ++ text)
    IO.print compilation.text
    return 0
  | .error e =>
    IO.eprintln (if e.message = "" then "error" else e.message)
    return 1

def programName : String := "modelica"

end Modelica

open Modelica in
def main (arguments : List String) : IO UInt32 := do
  match Command.read arguments with
  | .help =>
    IO.print (Command.helpText programName)
    return 0
  | .refuse fault =>
    IO.eprint (Command.refusal programName fault)
    return 2
  | .compile settings folder className =>
    if settings.flattenOnly then Command.flattenPath folder className
    else
      IO.eprintln "only flattening is available, see --flatten_only"
      return 1
