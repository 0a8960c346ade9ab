import Modelica.Error
import Modelica.OrderedMap

set_option autoImplicit false

-- Alias relations between signed names. A name with a minus sign in front is the negative of the name behind
-- it; to make two names aliases makes their negatives aliases too. Each class of aliases has one canonical
-- name, and every name in it a sign relative to that.

namespace Modelica

structure AliasRelation where
  -- The aliases of each name that has any, itself among them.
  classes : OrderedMap String (List String) := .empty
  -- The canonical name and the sign of each name that has aliases.
  canonicals : OrderedMap String (String × Int) := .empty
  canonicalNames : List String := []

namespace AliasRelation

def isNegative (name : String) : Except Error Bool :=
  match name.toList with
  | [] => .error .outOfRange
  | c :: _ => .ok (c = '-')

def negate (name : String) : Except Error String :=
  match name.toList with
  | [] => .error .outOfRange
  | c :: rest => .ok (if c = '-' then String.ofList rest else "-" ++ name)

def aliases (r : AliasRelation) (name : String) : List String :=
  (r.classes.find? name).getD [name]

def canonicalSigned (r : AliasRelation) (name : String) : Except Error (String × Int) :=
  match r.canonicals.find? name with
  | some c => .ok c
  | none => do
    if ← isNegative name then return (← negate name, -1)
    return (name, 1)

def join (as bs : List String) : List String :=
  bs.foldl (fun acc b => if acc.contains b then acc else acc ++ [b]) as

abbrev Change (α : Type) := EStateM Error AliasRelation α

def ofExcept {α : Type} : Except Error α → Change α
  | .ok a => pure a
  | .error e => throw e

def setClass (name : String) (members : List String) : Change Unit :=
  modify fun r => { r with classes := r.classes.insert name members }

def enlarge (name : String) (members : List String) : Change Unit := do
  let r ← get
  if r.classes.contains name then
    for v in r.aliases name do setClass v members

def setCanonical (name : String) (canonical : String) (sign : Int) : Change Unit :=
  modify fun r => { r with canonicals := r.canonicals.insert name (canonical, sign) }

-- Makes two names aliases. The canonical name of the first stays.
def add (a b : String) : Change Unit := do
  let positive := (← get).aliases a
  let notA ← ofExcept (negate a)
  let inverse := (← get).aliases notA
  let positive := join positive ((← get).aliases b)
  enlarge a positive
  let notB ← ofExcept (negate b)
  let inverse := join inverse ((← get).aliases notB)
  for v in positive do
    setClass (← ofExcept (negate v)) inverse
    setClass v positive
  let (canonical, sign) ← ofExcept ((← get).canonicalSigned a)
  let (old, _) ← ofExcept ((← get).canonicalSigned b)
  modify fun r =>
    { r with canonicalNames := (join r.canonicalNames [canonical]).filter (· ≠ old) }
  for v in positive do
    setCanonical v canonical sign
    setCanonical (← ofExcept (negate v)) canonical (-sign)

def knownClass (r : AliasRelation) (name : String) : Except Error (List String) :=
  match r.classes.find? name with
  | some members => .ok members
  | none => .error (.unknownName name)

def forget (name : String) : Change Unit := do
  unless (← get).classes.contains name do throw (.unknownName name)
  modify fun r => { r with classes := r.classes.erase name }
  unless (← get).canonicals.contains name do throw (.unknownName name)
  modify fun r => { r with canonicals := r.canonicals.erase name }

-- Forgets a canonical name with all its aliases; other names are left.
def remove (a : String) : Change Unit := do
  let r ← get
  if r.canonicalNames.contains a then
    let own ← ofExcept (r.knownClass a)
    let opposite ← ofExcept (r.knownClass (← ofExcept (negate a)))
    for b in join own opposite do forget b
    modify fun r => { r with canonicalNames := r.canonicalNames.filter (· ≠ a) }

def groups (r : AliasRelation) : List (String × List String) :=
  r.canonicalNames.map fun c => (c, (r.aliases c).filter (· ≠ c))

end AliasRelation

end Modelica
