import Modelica.Proofs.Library.BundleInstance

set_option autoImplicit false

namespace Modelica

open OrderedMap

structure Flat where
  symbols : OrderedMap String (List (List Expr) × Bool) := .empty
  initialEquations : List Equation := []
  equations : List Equation := []
  constraints : List Constraint := []
  initialStatements : List Statement := []
  statements : List Statement := []

namespace Flat

def insert (f : Flat) (name : String) (facet : List (List Expr) × Bool) : Flat :=
  { f with symbols := f.symbols.insert name facet }

def merge (f g : Flat) : Flat :=
  { symbols := f.symbols.union g.symbols
    initialEquations := f.initialEquations ++ g.initialEquations
    equations := f.equations ++ g.equations
    constraints := f.constraints ++ g.constraints
    initialStatements := f.initialStatements ++ g.initialStatements
    statements := f.statements ++ g.statements }

def under (outer : List (List Expr)) (f : Flat) : Flat :=
  { f with symbols := f.symbols.mapValues fun v => (outer ++ v.1, v.2) }

def qualify (s : Surroundings) (f : Flat) : Flat :=
  { f with symbols := f.symbols.mapValues fun v => (s.rows v.1, v.2) }

def addQualified (s : Surroundings) (d : ClassDef) (f : Flat) : Flat :=
  { f with
    equations := f.equations ++ d.equations.map fun e => Build.markSides e (e.qualify s)
    constraints := f.constraints ++ d.constraints.map (Constraint.qualify s)
    initialEquations := f.initialEquations ++ d.initialEquations.map (Equation.qualify s)
    statements := f.statements ++ d.statements.map (Statement.qualify s)
    initialStatements := f.initialStatements ++ d.initialStatements.map (Statement.qualify s) }

end Flat

def inFront (instanceName : String) : String := if instanceName = "" then "" else instanceName ++ "."

namespace Library

def facet (lib : Library) (s : SymbolId) : List (List Expr) × Bool :=
  ((lib.symbolOf s).dimensions, (lib.symbolOf s).connectorType.isSome)

def view (lib : Library) (c : ClassId) : Flat :=
  { symbols := (lib.classOf c).symbols.mapValues lib.facet
    initialEquations := (lib.classOf c).initialEquations
    equations := (lib.classOf c).equations
    constraints := (lib.classOf c).constraints
    initialStatements := (lib.classOf c).initialStatements
    statements := (lib.classOf c).statements }

def addFlat (lib : Library) (inner : ClassId → String → Flat) (f : Flat) (name : String)
    (s : SymbolId) : Flat :=
  let dimensions := (lib.symbolOf s).dimensions
  match (lib.symbolOf s).type with
  | .instance_ c =>
    if (lib.classOf c).type = "__builtin" then f.insert name (dimensions, false)
    else
      let f := f.merge ((inner c name).under dimensions)
      if (lib.classOf c).type = "connector" then f.insert name (dimensions, true) else f
  | _ => f.insert name (dimensions, false)

def flat (lib : Library) : Nat → ClassId → String → Flat
  | 0, _, _ => {}
  | fuel + 1, id, instanceName =>
    let d := lib.classOf id
    let before := inFront instanceName
    let f := d.symbols.entries.foldl
      (fun f e => lib.addFlat (lib.flat fuel) f (before ++ e.1) e.2) {}
    let s : Surroundings := ⟨before, fun name => f.symbols.keys.contains name⟩
    (f.qualify s).addQualified s d

end Library

structure ClassDef.Hollow (d : ClassDef) (c : ClassId) : Prop where
  extends_ : d.extends_ = []
  classes : d.classes = .empty
  functions : d.functions = .empty
  parent : d.parent = none
  origin : d.origin = c

namespace Library

structure Growing (ok : String → Bool) (renamed : SymbolId → Prop) (start : Library)
    (flat : ClassId) (type : String) (f : Flat) (now : Library) : Prop where
  light : now.Light ok
  unmoved : start.Unmoved ok renamed now
  new : start.classes.size ≤ flat.index
  known : flat.index < now.classes.size
  hollow : (now.classOf flat).Hollow flat
  type : (now.classOf flat).type = type
  unique : (now.classOf flat).symbols.keys.Nodup
  placed : ∀ t ∈ (now.classOf flat).symbols.values, now.Placed ok flat.index t
  view : now.view flat = f

variable {ok : String → Bool} {renamed : SymbolId → Prop} {start now next : Library}
  {flat : ClassId} {type : String} {f : Flat}

theorem Placed.facet_eq {bound : Nat} {s : SymbolId} (placed : now.Placed ok bound s)
    (unmoved : now.Unmoved ok renamed next) : next.facet s = now.facet s := by
  unfold facet
  rw [unmoved.dimensions s placed.known]
  refine congrArg (Prod.mk _) ?_
  obtain variable_ | ⟨c, socket, _⟩ := placed
  · rw [(variable_.unmoved unmoved).connectorType, variable_.connectorType]
  · rw [(socket.unmoved unmoved).connectorType, socket.connectorType]

theorem view_of_classOf (c : ClassId) (same : next.classOf c = now.classOf c)
    (facets : ∀ t ∈ (now.classOf c).symbols.values, next.facet t = now.facet t) : next.view c = now.view c := by
  unfold view
  rw [same, mapValues_congr _ _ _ facets]

namespace Growing

section

variable (growing : Growing ok renamed start flat type f now)
include growing

theorem later (unmoved : now.Unmoved ok renamed next) (light : next.Light ok) :
    Growing ok renamed start flat type f next := by
  have same := unmoved.classOf flat growing.known
  refine ⟨light, growing.unmoved.trans unmoved, growing.new,
    growing.known.trans_le unmoved.moreClasses, ?_, ?_, ?_, ?_, ?_⟩
  · rw [same]; exact growing.hollow
  · rw [same]; exact growing.type
  · rw [same]; exact growing.unique
  · rw [same]
    exact fun t member => (growing.placed t member).unmoved unmoved
  · rw [← growing.view]
    exact view_of_classOf flat same fun t member => (growing.placed t member).facet_eq unmoved

theorem modifyClass (g : ClassDef → ClassDef) {f : Flat} (hollow : (g (now.classOf flat)).Hollow flat)
    (sameType : (g (now.classOf flat)).type = (now.classOf flat).type)
    (unique : (g (now.classOf flat)).symbols.keys.Nodup)
    (placed : ∀ t ∈ (g (now.classOf flat)).symbols.values, now.Placed ok flat.index t)
    (view : (now.modifyClass flat g).view flat = f) : Growing ok renamed start flat type f (now.modifyClass flat g) := by
  have self := classOf_modifyClass_self now flat g growing.known
  refine ⟨growing.light.modifyClass flat g ?_, growing.unmoved.modifyClass flat growing.new g,
    growing.new, ?_, ?_, ?_, ?_, ?_, view⟩
  · rw [ClassDef.light, hollow.classes]
    rfl
  · simpa using growing.known
  · rw [self]; exact hollow
  · rw [self, sameType]; exact growing.type
  · rw [self]; exact unique
  · rw [self]
    exact fun t member => (placed t member).modifyClass flat g

theorem insert (name : String) (s : SymbolId) (placed : now.Placed ok flat.index s) :
    Growing ok renamed start flat type (f.insert name (now.facet s))
      (now.modifyClass flat fun d => { d with symbols := d.symbols.insert name s }) := by
  refine growing.modifyClass _ { growing.hollow with } rfl (nodup_insert _ growing.unique name s) ?_ ?_
  · intro t member
    obtain ⟨e, listed, rfl⟩ := List.mem_map.1 member
    obtain rfl | old := mem_entries_insert _ name s e listed
    · exact placed
    · exact growing.placed e.2 (List.mem_map_of_mem old)
  · rw [← growing.view, Library.view, classOf_modifyClass_self now flat _ growing.known, mapValues_insert]
    rfl

theorem merge (inner : ClassId) (hollow : (now.classOf inner).Hollow inner)
    (placed : ∀ t ∈ (now.classOf inner).symbols.values, now.Placed ok flat.index t) :
    Growing ok renamed start flat type (f.merge (now.view inner))
      (now.modifyClass flat fun d => d.merge (now.classOf inner)) := by
  have own := growing.hollow
  refine growing.modifyClass _ { own with classes := ?_, functions := ?_ } rfl (nodup_union _ _ growing.unique) ?_ ?_
  · rw [ClassDef.merge, own.classes, hollow.classes]
    rfl
  · rw [ClassDef.merge, own.functions, hollow.functions]
    rfl
  · intro t member
    obtain ⟨e, listed, rfl⟩ := List.mem_map.1 member
    obtain old | new := mem_entries_union _ _ e listed
    · exact growing.placed e.2 (List.mem_map_of_mem old)
    · exact placed e.2 (List.mem_map_of_mem new)
  · rw [← growing.view, Library.view, classOf_modifyClass_self now flat _ growing.known, ClassDef.merge, mapValues_union]
    rfl

theorem addQualified (s : Surroundings) (d : ClassDef) : Growing ok renamed start flat type (f.addQualified s d)
      (now.modifyClass flat (d.addQualified s)) := by
  refine growing.modifyClass _ { growing.hollow with } rfl growing.unique growing.placed ?_
  rw [← growing.view, Library.view, classOf_modifyClass_self now flat _ growing.known]
  rfl

end

end Growing

end Library

end Modelica
