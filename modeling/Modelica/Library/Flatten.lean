import Modelica.Library.Connect
import Modelica.Library.Define
import Modelica.Library.Differentiated

set_option autoImplicit false

namespace Modelica.Build

def addStateValueEquations (node : ClassId) : Build Unit := do
  for s in (← classOf node).symbols.values do
    let d ← symbolOf s
    unless d.value.isAbsent do
      unless d.prefixes.contains "constant" || d.prefixes.contains "parameter" do
        updateClass node fun c =>
          { c with equations := c.equations ++ [.simple (.component s) d.value ""] }
        updateSymbol s fun d => { d with value := .absent }

def addVariableValueStatements (node : ClassId) : Build Unit := do
  for s in (← classOf node).symbols.values do
    let d ← symbolOf s
    unless d.value.isAbsent do
      updateClass node fun c =>
        { c with statements := c.statements ++ [.assign [.component s] d.value ""] }
      updateSymbol s fun d => { d with value := .absent }

def classNamed (id : ClassId) (r : ComponentRef) : Build ClassId := do
  if elementaryNames.contains r.name then throw .elementaryClass
  findClass id r

-- Flattens a class of a library. The new root has the functions that are called and then the flat class.
def flatten (root : ClassId) (r : ComponentRef) : Build ClassId := do
  let given ← classNamed root r
  let fuel ← depthLimit
  let flat ← flattenClass fuel given
  expandConnectors fuel flat
  addStateValueEquations flat
  let functions := (← classOf flat).functions
  for c in functions.values do addVariableValueStatements c
  annotateStates flat
  updateClass flat fun d => { d with functions := .empty }
  let name := (← classOf given).name
  let classes : OrderedMap (Option String) ClassId :=
    ⟨functions.entries.map fun e => (some e.1, e.2)⟩
  addClass fun c => { classes := classes.insert name flat, role := .root, origin := c }

def mergeClasses : Nat → ClassId → ClassId → Build Unit
  | 0, _, _ => throw .unbounded
  | fuel + 1, id, other => do
    for (name, c) in (← classOf other).classes.entries do
      match (← classOf id).classes.find? name with
      | some d => mergeClasses fuel d c
      | none => updateClass id fun d => { d with classes := d.classes.insert name c }

def extend (root other : ClassId) : Build Unit := do
  let fuel := (← get).classes.size + 1
  mergeClasses fuel root other
  Define.linkParents fuel root

def defineAll : List String → Build ClassId
  | [] => throw .outOfRange
  | text :: rest => do
    let root ← define text
    for t in rest do extend root (← define t)
    return root

end Modelica.Build
