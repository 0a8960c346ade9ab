import Modelica.Proofs.Library.Handed
import Modelica.Proofs.Library.Qualified

set_option autoImplicit false

namespace Modelica.Build

open Library

-- A model `M` that gives its own `p` to `x` in a component of `A`, where there is another `p`. It is the value
-- of `x`, or it stands in brackets behind the name.
def captured (brackets : Bool) : Library where
  classes := #[
    { classes := ⟨[(some "A", ⟨1⟩), (some "M", ⟨2⟩)]⟩
      role := .root
      origin := ⟨0⟩ },
    model 1 "A" 0 [] [("p", 0), ("x", 1)] [],
    model 2 "M" 0 [] [("p", 2), ("a", 3)] []]
  symbols := #[
    { name := "p", type := .named (.simple "Real"), value := .integer 1 },
    { name := "x", type := .named (.simple "Real") },
    { name := "p", type := .named (.simple "Real"), value := .integer 2 },
    { name := "a", type := .named (.simple "A"), modification := some ⟨0⟩ }]
  modifications := #[⟨[⟨0⟩]⟩, ⟨[⟨1⟩]⟩]
  arguments := #[
    { value := .element (.simple "x") [if brackets then .modification ⟨1⟩ else .ref (.simple "p")]
      origin := ⟨0⟩ },
    { value := .element (.simple "start") [.ref (.simple "p")], origin := ⟨1⟩ }]

end Modelica.Build
