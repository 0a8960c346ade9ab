import Modelica.Decimal

set_option autoImplicit false

namespace Modelica.Decimal

def significant (count : Nat) (x : Binary64) : Digits :=
  let (num, den) := x.fraction
  let p := pointPosition num den
  let shift : Int := (count : Int) - p
  let n :=
    if 0 ≤ shift then roundDiv (num * Nat.pow 10 shift.toNat) den
    else roundDiv num (den * Nat.pow 10 (-shift).toNat)
  .ofNat n count p

def positional (d : Digits) : List Char :=
  if d.point ≤ 0 then '0' :: '.' :: (zeros (-d.point).toNat ++ d.digits)
  else
    let n := d.point.toNat
    let whole := d.digits.take n
    let rest := d.digits.drop n
    whole ++ zeros (n - whole.length) ++ (if rest.isEmpty then [] else '.' :: rest)

def general (count : Nat) (x : Binary64) : String :=
  if x.isNaN then "nan"
  else
    let sign := if x.isNegative then "-" else ""
    if x.isInfinite then sign ++ "inf"
    else if x.significand = 0 then "0"
    else
      let d := significant count x
      let e := d.point - 1
      let body :=
        if -4 ≤ e && e < count then positional d
        else
          let rest := d.digits.drop 1
          d.digits.take 1 ++ (if rest.isEmpty then [] else '.' :: rest) ++ exponentPart e
      sign ++ String.ofList body

def fixed (places : Nat) (x : Binary64) : String :=
  if x.isNaN then "nan"
  else
    let sign := if x.isNegative then "-" else ""
    if x.isInfinite then sign ++ "inf"
    else
      let (num, den) := x.fraction
      let n := roundDiv (num * Nat.pow 10 places) den
      let digits := Nat.toDigits 10 n
      let digits := zeros (places + 1 - digits.length) ++ digits
      let whole := digits.take (digits.length - places)
      let rest := digits.drop (digits.length - places)
      (if n = 0 then "" else sign) ++
        String.ofList (whole ++ (if rest.isEmpty then [] else '.' :: rest))

end Modelica.Decimal
