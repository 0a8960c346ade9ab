import Modelica.Ode

set_option autoImplicit false

namespace Modelica.Ode

namespace Simulation

def axpy (h : Float) (k x : List Float) : List Float :=
  x.zipWith (fun a b => a + h * b) k

def step (f : List Float → List Float) (h : Float) (x : List Float) : List Float :=
  let k1 := f x
  let k2 := f (axpy (h / 2.0) k1 x)
  let k3 := f (axpy (h / 2.0) k2 x)
  let k4 := f (axpy h k3 x)
  let sum := axpy 1.0 k4 (axpy 2.0 k3 (axpy 2.0 k2 k1))
  axpy (h / 6.0) sum x

def distance (x y : List Float) : Float :=
  (x.zipWith (fun a b => (a - b).abs / (1.0 + b.abs)) y).foldl
    (fun m d => if d ≤ m then m else d) 0.0

def tolerance : Float := 1.0e-11

def advance (f : List Float → List Float) (least : Float) :
    Nat → Float → Float → List Float → List Float
  | 0, _, _, x => x
  | fuel + 1, h, rest, x =>
    if rest ≤ 0.0 then x
    else
      let last := rest ≤ h
      let h := if last then rest else h
      let coarse := step f h x
      let fine := step f (h / 2.0) (step f (h / 2.0) x)
      let error := distance coarse fine
      if error ≤ tolerance || h ≤ least then
        let better := fine.zipWith (fun a b => a + (a - b) / 15.0) coarse
        if last then better
        else advance f least fuel (if error ≤ tolerance / 64.0 then 2.0 * h else h) (rest - h) better
      else advance f least fuel (h / 2.0) rest x

end Simulation

structure Sample where
  time : Float
  states : List Float
  outputs : List Float
  inputs : List Float

open Simulation

def Ready.samplesFrom (r : Ready) (u : List Float) (dt tf : Float) :
    Nat → Float → List Float → Except Error (List Sample)
  | 0, _, _ => .ok []
  | fuel + 1, t, x => do
    let next := t + dt
    if next ≤ tf then
      let f := fun x =>
        match r.evaluate false x u with
        | .ok (f, _) => f.map Dual.value
        | .error _ => x.map fun _ => 0.0
      let x := if x.isEmpty then x else advance f (dt * 1.0e-9) 1000000 dt dt x
      let (_, g) ← r.evaluate false x u
      return ⟨next, x, g.map Dual.value, u⟩ :: (← r.samplesFrom u dt tf fuel next x)
    else return []

def Ready.simulate (r : Ready) (x u : List Float) (t0 tf dt : Float) :
    Except Error (List Sample) := do
  if x.length < r.ode.states.length || u.length < r.ode.inputs.length then throw .outOfRange
  let (_, g) ← r.evaluate false x u
  let fuel := ((tf - t0) / dt).toUInt64.toNat + 2
  return ⟨t0, x, g.map Dual.value, u⟩ :: (← r.samplesFrom u dt tf fuel t0 x)

end Modelica.Ode
