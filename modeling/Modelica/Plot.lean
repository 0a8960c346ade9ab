import Modelica.Error

set_option autoImplicit false

namespace Modelica

inductive Series (α : Type) where
  | values (xs : List α)
  | rows (xs : List (List α))

namespace Series

variable {α : Type}

def columns : Series α → List (List α)
  | .values xs => [xs]
  | .rows xs =>
    (List.range ((xs.head?.map List.length).getD 0)).map fun i => xs.filterMap fun row => row[i]?

def isEmpty : Series α → Bool
  | .values xs => xs.isEmpty
  | .rows xs => xs.isEmpty || xs.any List.isEmpty

end Series

structure Results (α : Type) where
  time : Option (List α)
  fields : List (String × Series α)
  labels : Option (List (String × List String))

structure Plot (α : Type) where
  lines : List (List α × List α) := []
  labels : List String := []

namespace Plot

variable {α : Type}

def defaultFields : List String := ["x", "y", "m", "c"]

def timeLabel : String := "t, sec"

def addField (r : Results α) (p : Plot α) (name : String) : Except Error (Plot α) := do
  let some series := r.fields.lookup name | throw (.unknownName name)
  if series.isEmpty then return p
  let some time := r.time | throw (.unknownName "t")
  let some labels := r.labels | throw (.unknownName "labels")
  let some own := labels.lookup name | throw (.unknownName name)
  return ⟨p.lines ++ series.columns.map fun c => (time, c), p.labels ++ own⟩

def ofResults (r : Results α) (fields : Option (List String)) : Except Error (Plot α) :=
  (fields.getD defaultFields).foldlM (addField r) {}

def legend (p : Plot α) : List String := p.labels.take p.lines.length

end Plot

end Modelica
