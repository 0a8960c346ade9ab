import Modelica.Outline

set_option autoImplicit false

namespace Modelica.Options

def defaults : OrderedMap String Outline :=
  ⟨[("library_folders", .list []),
    ("verbose", .bool false),
    ("check_balanced", .bool true),
    ("mtime_check", .bool true),
    ("cache", .bool false),
    ("codegen", .bool false),
    ("expand_mx", .bool false),
    ("unroll_loops", .bool true),
    ("inline_functions", .bool true),
    ("expand_vectors", .bool false),
    ("replace_parameter_expressions", .bool false),
    ("replace_constant_expressions", .bool false),
    ("eliminate_constant_assignments", .bool false),
    ("replace_parameter_values", .bool false),
    ("replace_constant_values", .bool false),
    ("eliminable_variable_expression", .null),
    ("factor_and_simplify_equations", .bool false),
    ("detect_aliases", .bool false),
    ("reduce_affine_expression", .bool false)]⟩

def complete : Outline → Except Error (OrderedMap String Outline)
  | .null => .ok defaults
  | .table entries =>
    .ok (entries.foldl (fun m e => m.insert (e.1.getD "null") e.2) defaults)
  | _ => .error .wrongShape

end Modelica.Options
