import Modelica.Decimal.Rounded
import Modelica.Main
import Modelica.Ode.Simulation
import Modelica.Options
import Modelica.Outline.Walk
import Modelica.Plot
import Modelica.Proofs.Alias.Representatives
import Modelica.Proofs.Expr.Conversions
import Modelica.Proofs.Expr.Walking
import Modelica.Proofs.Flow.Connectors
import Modelica.Proofs.Library.Capture
import Modelica.Proofs.Library.FlatReferences
import Modelica.Proofs.Library.FlatVariables
import Modelica.Proofs.Library.Inheritance
import Modelica.Proofs.Library.Layered
import Modelica.Proofs.Library.Lookup
import Modelica.Proofs.Library.States
import Modelica.Proofs.Library.Taken
import Modelica.Proofs.Library.Trees
import Modelica.Proofs.Library.Visibility
import Modelica.Proofs.Script.Declared
import Modelica.Proofs.Script.Identifiers
import Modelica.Proofs.Source.Defined
import Modelica.Proofs.Source.ShortForm
import Modelica.Proofs.Xml.Equations
import Modelica.Release.Program
import Modelica.Release.Project
