import Modelica.Library.Lookup
import Modelica.Library.Reach

set_option autoImplicit false

namespace Modelica.Build

def constantBehind? (owner : ClassId) (r : ComponentRef) : Build (Option SymbolId) :=
  if r.child.isNone then pure none
  else
    tryCatch (some <$> findConstant owner r) fun
      | .classNotFound _ | .elementaryClass | .constantNotFound | .unknownName _ => pure none
      | e => throw e

-- Adds the constants that the parts of an instance refer to. Instances inside it are completed on the way.
def constantsIn : Nat → ClassId → OrderedMap String SymbolId → List Part →
    Build (OrderedMap String SymbolId)
  | 0, _, _, _ => throw .unbounded
  | fuel + 1, owner, found, parts =>
    parts.foldlM (fun found part => do
      match part with
      | .ref r =>
        match ← constantBehind? owner r with
        | some s => pure (found.insert r.text s)
        | none => pure found
      | .entry (.class_ c) =>
        let d ← classOf c
        match d.role with
        | .instance_ _ =>
          let inner ← constantsIn fuel c .empty ((← get).parts (.class_ c))
          updateClass c fun d => { d with symbols := d.symbols.union inner }
          pure found
        | .definition =>
          throw (.broken "All classes should have been replaced by instance classes.")
        | .root => constantsIn fuel owner found ((← get).parts (.class_ c))
      | .entry e => constantsIn fuel owner found ((← get).parts e)) found

def pullConstants (id : ClassId) : Build Unit := do
  let _ ← constantsIn ((← get).size + 2) id .empty [.entry (.class_ id)]

end Modelica.Build
