import Modelica.Proofs.Library.Handed

set_option autoImplicit false

namespace Modelica.Build

open Library

end Modelica.Build
