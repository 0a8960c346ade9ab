import Modelica.Text

set_option autoImplicit false

namespace Modelica

inductive Folder where
  | mk (files : List (String × String)) (folders : List (String × Folder))
deriving Inhabited

namespace Folder

def empty : Folder := ⟨[], []⟩

def files : Folder → List (String × String)
  | ⟨files, _⟩ => files

def folders : Folder → List (String × Folder)
  | ⟨_, folders⟩ => folders

def insert (text : String) : List String → Folder → Folder
  | [], folder => folder
  | [name], ⟨files, folders⟩ => ⟨files ++ [(name, text)], folders⟩
  | name :: rest, ⟨files, folders⟩ =>
    if (folders.lookup name).isSome then
      ⟨files, folders.map fun e => if e.1 = name then (e.1, insert text rest e.2) else e⟩
    else ⟨files, folders ++ [(name, insert text rest empty)]⟩

def steps (path : String) : List String :=
  (Text.split '/' path).filter fun s => s ≠ "" && s ≠ "."

def ofPaths (entries : List (String × String)) : Folder :=
  entries.foldl (fun folder e => folder.insert e.2 (steps e.1)) empty

def find? : List String → Folder → Option Folder
  | [], folder => some folder
  | name :: rest, folder =>
    match folder.folders.lookup name with
    | some inner => find? rest inner
    | none => none

def isModelFile (name : String) : Bool :=
  Text.endsWith name ".mo"

mutual

def modelFiles : Folder → List (String × String)
  | ⟨files, folders⟩ => files.filter (fun f => isModelFile f.1) ++ modelFilesAmong folders

def modelFilesAmong : List (String × Folder) → List (String × String)
  | [] => []
  | (_, folder) :: rest => folder.modelFiles ++ modelFilesAmong rest

end

end Folder

end Modelica
