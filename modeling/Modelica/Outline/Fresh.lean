import Modelica.Outline

set_option autoImplicit false

namespace Modelica.Outline

def absent : Outline := Expr.absent.outline

def plainRef : Outline := (default : ComponentRef).outline

def fieldsOf : Outline → List (String × Outline)
  | .record _ fields => fields
  | _ => []

def emptyModification : Outline := Modification.outline {}

def fresh? : String → Option (List (String × Outline))
  | "Node" => some []
  | "Primary" => some (fieldsOf absent)
  | "Array" => some [("values", .list [])]
  | "Slice" => some (fieldsOf (Expr.slice .absent .absent (.integer 1)).outline)
  | "ComponentRef" => some (fieldsOf plainRef)
  | "Expression" => some [("operator", .null), ("operands", .list [])]
  | "IfExpression" => some [("conditions", .list []), ("expressions", .list [])]
  | "Constraint" =>
    some [("left", .null), ("right", .null), ("comment", .string ""), ("operand", .string "")]
  | "Equation" => some [("left", .null), ("right", .null), ("comment", .string "")]
  | "IfEquation" | "WhenEquation" | "IfStatement" | "WhenStatement" =>
    some [("conditions", .list []), ("blocks", .list []), ("comment", .string "")]
  | "ForIndex" => some [("name", .string ""), ("expression", .null)]
  | "ForEquation" => some [("indices", .list []), ("equations", .list []), ("comment", .null)]
  | "ConnectClause" => some [("left", plainRef), ("right", plainRef), ("comment", .string "")]
  | "AssignmentStatement" =>
    some [("left", .list []), ("right", .null), ("comment", .string "")]
  | "ForStatement" =>
    some [("indices", .list []), ("statements", .list []), ("comment", .string "")]
  | "Function" => some [("name", .string ""), ("arguments", .list []), ("comment", .string "")]
  | "Symbol" => some (fieldsOf ({} : Symbol).outline)
  | "ComponentClause" =>
    some [("prefixes", .list []), ("type", plainRef), ("dimensions", .list [.list [absent]]),
      ("comment", .list []), ("symbol_list", .list [])]
  | "EquationSection" => some [("initial", .bool false), ("equations", .list [])]
  | "ConstraintSection" => some [("initial", .bool false), ("constraints", .list [])]
  | "AlgorithmSection" => some [("initial", .bool false), ("statements", .list [])]
  | "ImportAsClause" => some [("component", plainRef), ("name", .string "")]
  | "ImportFromClause" => some [("component", plainRef), ("symbols", .list [])]
  | "ElementModification" => some [("component", plainRef), ("modifications", .list [])]
  | "ShortClassDefinition" =>
    some [("name", .string ""), ("type", .string ""), ("component", plainRef),
      ("class_modification", emptyModification)]
  | "ElementReplaceable" => some []
  | "ClassModification" => some (fieldsOf emptyModification)
  | "ClassModificationArgument" =>
    some [("value", .list []), ("scope", .link none), ("redeclare", .bool false)]
  | "ExtendsClause" =>
    some [("component", .null), ("class_modification", .null),
      ("visibility", .visibility .private_)]
  | "Class" => some (fieldsOf ({ origin := ⟨0⟩ } : ClassDef).outline)
  | "InstanceClass" =>
    some (fieldsOf ({ origin := ⟨0⟩ } : ClassDef).outline ++
      [("modification_environment", emptyModification)])
  | "Tree" => some (fieldsOf ({ origin := ⟨0⟩, role := .root } : ClassDef).outline)
  | _ => none

def settable (kind : String) (fields : List (String × Outline)) : List String :=
  let names := fields.map Prod.fst
  if kind = "InstanceClass" then names.filter (· ≠ "modification_environment") else names

def setField (name : String) (value : Outline) :
    List (String × Outline) → List (String × Outline)
  | [] => []
  | (k, v) :: rest => if k = name then (k, value) :: rest else (k, v) :: setField name value rest

def setFields (allowed : List String) (fields : List (String × Outline)) :
    List (String × Outline) → Except Error (List (String × Outline))
  | [] => .ok fields
  | (name, value) :: rest =>
    if allowed.contains name then setFields allowed (setField name value fields) rest
    else .error (.unknownName (name ++ " not valid arg"))

def make (kind : String) (given changed : List (String × Outline)) : Except Error Outline :=
  match fresh? kind with
  | none => .error .notApplicable
  | some fields => do
    let fields ← setFields (settable kind fields) fields given
    return .record kind (← setFields (fields.map Prod.fst) fields changed)

end Modelica.Outline
