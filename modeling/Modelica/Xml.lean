set_option autoImplicit false

namespace Modelica.Xml

inductive Element where
  | mk (tag : String) (attributes : List (String × String)) (children : List Element)
      (mark : Option Nat)

namespace Element

def tag : Element → String
  | .mk t _ _ _ => t

def children : Element → List Element
  | .mk _ _ cs _ => cs

def mark : Element → Option Nat
  | .mk _ _ _ m => m

mutual

def without (marks : List Nat) : Element → Element
  | .mk t as cs m => .mk t as (withoutAll marks cs) m

def withoutAll (marks : List Nat) : List Element → List Element
  | [] => []
  | c :: cs =>
    match c.mark with
    | some m =>
      if marks.contains m then withoutAll marks cs
      else c.without marks :: withoutAll marks cs
    | none => c.without marks :: withoutAll marks cs

end

end Element

def isLegal (c : Char) : Bool :=
  let n := c.toNat
  (32 ≤ n || n = 9 || n = 10 || n = 13) && n ≠ 0xFFFE && n ≠ 0xFFFF

def escape (c : Char) : String :=
  match c with
  | '<' => "&lt;"
  | '>' => "&gt;"
  | '&' => "&amp;"
  | '"' => "&quot;"
  | c =>
    if c.toNat < 32 || 127 < c.toNat then "&#" ++ toString c.toNat ++ ";" else c.toString

def attribute_ (a : String × String) : String :=
  " " ++ a.1 ++ "=\"" ++ String.join (a.2.toList.map escape) ++ "\""

def indentation (level : Nat) : String :=
  String.ofList (List.replicate (2 * min level 30) ' ')

mutual

def render (level : Nat) : Element → String
  | .mk t as cs _ =>
    let opening := indentation level ++ "<" ++ t ++ String.join (as.map attribute_)
    match cs with
    | [] => opening ++ "/>\n"
    | c :: cs =>
      opening ++ ">\n" ++ render (level + 1) c ++ renderAll (level + 1) cs ++
        indentation level ++ "</" ++ t ++ ">\n"

def renderAll (level : Nat) : List Element → String
  | [] => ""
  | c :: cs => render level c ++ renderAll level cs

end

end Modelica.Xml
