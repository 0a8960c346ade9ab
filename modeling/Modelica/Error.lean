import Modelica.Text.Quoted
import Modelica.Token

set_option autoImplicit false

namespace Modelica

inductive Error where
  | malformed (place : Position)
  | missingPart
  | unsupported
  | unknownName (name : String)
  | notApplicable
  | wrongShape
  | outOfRange
  | duplicateSymbol (name : String)
  | badNumber (text : String)
  | classNotFound (reference : String)
  | elementaryClass
  | constantNotFound
  | modificationTarget (symbol className : String)
  | extendsItself (className : String)
  | extendsBuiltinAndOthers
  | unknownRedeclaration
  | subscriptedModifier
  | unknownAttribute (name : String)
  | unknownSymbolType (kind : String)
  | unresolvedConnection (reference left right : String)
  | unsupportedConnector (prefixes : List String)
  -- A rule on modifications that the earlier stages keep is broken.
  | broken (rule : String)
  | initialConstraint
  | malformedProgram
  | undefinedName
  | unbalanced (states unknowns equations : Nat)
  | duplicateUnknowns
  | illegalCharacter
  | unbounded
  | inSymbol (symbol : String) (cause : Error)
deriving Repr, Inhabited

namespace Error

def message : Error → String
  | duplicateSymbol name => "[Errno " ++ name ++ "] already defined"
  | badNumber text => "could not convert string to float: '" ++ text ++ "'"
  | classNotFound reference => "Could not find class '" ++ reference ++ "'"
  | modificationTarget symbol className =>
    "Trying to modify symbol " ++ symbol ++ ", which does not exist in class " ++ className
  | extendsItself className => "Cannot extend class '" ++ className ++ "' with itself"
  | extendsBuiltinAndOthers =>
    "When extending a built-in class (Real, Integer, ...) you cannot extend other classes as well"
  | unknownRedeclaration => "Unknown redeclaration type"
  | subscriptedModifier => "Subscripting modifiers is not allowed."
  | unknownAttribute name => "Trying to set unknown symbol property " ++ name
  | unknownSymbolType kind => "Unknown object type of symbol type: " ++ kind
  | unresolvedConnection reference left right =>
    "Could not resolve " ++ reference ++ " in connect clause (" ++ left ++ "*, " ++ right ++ "*)"
  | unsupportedConnector prefixes =>
    "Unsupported connector variable prefixes " ++ Text.quotedList prefixes
  | broken rule => rule
  | initialConstraint =>
    "Initial constraints are not handled. Created a regulare constraint with access at time 0"
  | unbalanced states unknowns equations =>
    "# states: " ++ toString states ++ " + # variables: " ++ toString unknowns ++
      " != # equations " ++ toString equations
  | duplicateUnknowns => "duplicate symbols given"
  | illegalCharacter =>
    "All strings must be XML compatible: Unicode or ASCII, no NULL bytes or control characters"
  | unknownName name => name
  | inSymbol symbol _ => "Processing failed for symbol \"" ++ symbol ++ "\""
  | _ => ""

def root : Error → Error
  | inSymbol _ cause => cause.root
  | e => e

end Error

end Modelica
