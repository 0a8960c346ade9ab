import Modelica.Error
import Modelica.Library

set_option autoImplicit false

-- Computations that change a library. A failed computation leaves the changes it had made.

namespace Modelica

abbrev Build (α : Type) := EStateM Error Library α

namespace Build

def classOf (id : ClassId) : Build ClassDef := do
  return (← get).classOf id

def symbolOf (id : SymbolId) : Build Symbol := do
  return (← get).symbolOf id

def modificationOf (id : ModificationId) : Build Modification := do
  return (← get).modificationOf id

def argumentOf (id : ArgumentId) : Build Argument := do
  return (← get).argumentOf id

def addClass (make : ClassId → ClassDef) : Build ClassId :=
  modifyGet fun lib =>
    let id : ClassId := ⟨lib.classes.size⟩
    (id, { lib with classes := lib.classes.push (make id) })

def addSymbol (s : Symbol) : Build SymbolId :=
  modifyGet fun lib =>
    (⟨lib.symbols.size⟩, { lib with symbols := lib.symbols.push s })

def addModification (arguments : List ArgumentId) : Build ModificationId :=
  modifyGet fun lib =>
    (⟨lib.modifications.size⟩, { lib with modifications := lib.modifications.push ⟨arguments⟩ })

def addArgument (value : ArgumentValue) (scope : Option ClassId) (redeclare : Bool) :
    Build ArgumentId :=
  modifyGet fun lib =>
    let id : ArgumentId := ⟨lib.arguments.size⟩
    (id, { lib with arguments := lib.arguments.push ⟨value, scope, redeclare, id⟩ })

def updateClass (id : ClassId) (f : ClassDef → ClassDef) : Build Unit :=
  modify fun lib => { lib with classes := lib.classes.modify id.index f }

def updateSymbol (id : SymbolId) (f : Symbol → Symbol) : Build Unit :=
  modify fun lib => { lib with symbols := lib.symbols.modify id.index f }

def updateModification (id : ModificationId) (f : List ArgumentId → List ArgumentId) :
    Build Unit :=
  modify fun lib =>
    { lib with modifications := lib.modifications.modify id.index fun m => ⟨f m.arguments⟩ }

def updateArgument (id : ArgumentId) (f : Argument → Argument) : Build Unit :=
  modify fun lib => { lib with arguments := lib.arguments.modify id.index f }

def warn (text : String) : Build Unit :=
  modify fun lib => { lib with warnings := lib.warnings.push text }

end Build

end Modelica
