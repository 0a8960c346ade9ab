set_option autoImplicit false

-- Double-precision numbers as bit patterns, and their exact relation to decimals: a decimal is read as the
-- nearest double, halves going to the even one, and a double is written with the fewest digits that read back
-- as it. All arithmetic is on natural numbers.

namespace Modelica

structure Binary64 where
  bits : UInt64
deriving DecidableEq, Repr, Inhabited

namespace Binary64

def infinity : Binary64 := ⟨0x7FF0000000000000⟩

def zero : Binary64 := ⟨0⟩

def isNegative (x : Binary64) : Bool :=
  Nat.pow 2 63 ≤ x.bits.toNat

def exponentField (x : Binary64) : Nat :=
  x.bits.toNat / Nat.pow 2 52 % Nat.pow 2 11

def fractionField (x : Binary64) : Nat :=
  x.bits.toNat % Nat.pow 2 52

def isInfinite (x : Binary64) : Bool :=
  x.exponentField = 2047 && x.fractionField = 0

def isNaN (x : Binary64) : Bool :=
  x.exponentField = 2047 && x.fractionField ≠ 0

def significand (x : Binary64) : Nat :=
  if x.exponentField = 0 then x.fractionField else x.fractionField + Nat.pow 2 52

def exponent (x : Binary64) : Int :=
  if x.exponentField = 0 then -1074 else (x.exponentField : Int) - 1075

def fraction (x : Binary64) : Nat × Nat :=
  if 0 ≤ x.exponent then (x.significand * Nat.pow 2 x.exponent.toNat, 1)
  else (x.significand, Nat.pow 2 (-x.exponent).toNat)

def ofParts (negative : Bool) (significand : Nat) (exponent : Int) : Binary64 :=
  let magnitude :=
    if significand < Nat.pow 2 52 then significand
    else if 971 < exponent then 2047 * Nat.pow 2 52
    else (exponent + 1075).toNat * Nat.pow 2 52 + (significand - Nat.pow 2 52)
  ⟨UInt64.ofNat (magnitude + if negative then Nat.pow 2 63 else 0)⟩

end Binary64

namespace Decimal

-- The integer nearest to a quotient, halves going to the even one.
def roundDiv (num den : Nat) : Nat :=
  let q := num / den
  let r := num % den
  if 2 * r < den then q
  else if den < 2 * r then q + 1
  else if q % 2 = 0 then q else q + 1

def digitCount (n : Nat) : Nat :=
  (Nat.toDigits 10 n).length

def nearestQuotient (negative : Bool) (num den : Nat) : Binary64 :=
  if num = 0 then .ofParts negative 0 0
  else
    let guess : Int := (num.log2 : Int) - den.log2 - 52
    let scaled (e : Int) : Nat × Nat :=
      if 0 ≤ e then (num, den * Nat.pow 2 e.toNat) else (num * Nat.pow 2 (-e).toNat, den)
    let (n0, d0) := scaled guess
    -- the quotient lies within a factor of two of the power that `guess` aims at
    let e := max (-1074) (if n0 / d0 < Nat.pow 2 52 then guess - 1 else guess)
    let (n, d) := scaled e
    let m := roundDiv n d
    if m = Nat.pow 2 53 then .ofParts negative (Nat.pow 2 52) (e + 1) else .ofParts negative m e

-- The double nearest to `digits · 10 ^ exponent`. Powers of ten far outside the range of doubles are settled by
-- their size.
def nearest (negative : Bool) (digits : Nat) (exponent : Int) : Binary64 :=
  if digits = 0 then .ofParts negative 0 0
  else
    let size := (digitCount digits : Int) + exponent
    if 400 < size then .ofParts negative (Nat.pow 2 52) 972
    else if size < -400 then .ofParts negative 0 0
    else if 0 ≤ exponent then nearestQuotient negative (digits * Nat.pow 10 exponent.toNat) 1
    else nearestQuotient negative digits (Nat.pow 10 (-exponent).toNat)

def pointPosition (num den : Nat) : Int :=
  if den ≤ num then digitCount (num / den)
  else 1 - (digitCount ((den + num - 1) / num - 1) : Int)

-- Digits and the place of the point among them: `0.d₁d₂… · 10 ^ point`.
structure Digits where
  digits : List Char
  point : Int
deriving DecidableEq, Repr

def dropZeros (n : Nat) : Nat → Nat
  | 0 => n
  | fuel + 1 => if n ≠ 0 && n % 10 = 0 then dropZeros (n / 10) fuel else n

def Digits.ofNat (n : Nat) (count : Nat) (point : Int) : Digits :=
  let extra : Int := (digitCount n : Int) - count
  ⟨Nat.toDigits 10 (dropZeros n count), point + extra⟩

def candidates (x : Binary64) (count : Nat) : List Nat :=
  let (num, den) := x.fraction
  let p := pointPosition num den
  let shift : Int := (count : Int) - p
  -- everything is scaled by `4 · den`, and by the power of ten that makes the grid the integers
  let scale (n : Nat) : Nat := if 0 ≤ shift then n * Nat.pow 10 shift.toNat else n
  let unit := 4 * den * (if 0 ≤ shift then 1 else Nat.pow 10 (-shift).toNat)
  let ulp := if 0 ≤ x.exponent then Nat.pow 2 x.exponent.toNat else 1
  let narrow := x.fractionField = 0 && 1 < x.exponentField
  let value := scale (4 * num)
  let low := scale (4 * num - (if narrow then ulp else 2 * ulp))
  let high := scale (4 * num + 2 * ulp)
  let inside (n : Nat) : Bool :=
    if x.significand % 2 = 0 then low ≤ n * unit && n * unit ≤ high
    else low < n * unit && n * unit < high
  let below := value / unit
  let above := below + 1
  let nearerBelow :=
    let toBelow := value - below * unit
    let toAbove := above * unit - value
    toBelow < toAbove || (toBelow = toAbove && below % 2 = 0)
  (if nearerBelow then [below, above] else [above, below]).filter inside

def shortestFrom (x : Binary64) (count : Nat) : Nat → Digits
  | 0 => ⟨['0'], 0⟩
  | fuel + 1 =>
    match candidates x count with
    | n :: _ =>
      let (num, den) := x.fraction
      .ofNat n count (pointPosition num den)
    | [] => shortestFrom x (count + 1) fuel

def shortest (x : Binary64) : Digits :=
  shortestFrom x 1 17

structure Layout where
  least : Int
  limit : Int
  infinite : String
  undefined : String

def zeros (n : Nat) : List Char := List.replicate n '0'

def exponentPart (e : Int) : List Char :=
  let digits := Nat.toDigits 10 e.natAbs
  'e' :: (if e < 0 then '-' else '+') :: (zeros (2 - digits.length) ++ digits)

def Layout.place (layout : Layout) (d : Digits) : List Char :=
  let e := d.point - 1
  if layout.least ≤ e && e < layout.limit then
    if d.point ≤ 0 then '0' :: '.' :: (zeros (-d.point).toNat ++ d.digits)
    else
      let n := d.point.toNat
      let whole := d.digits.take n
      let rest := d.digits.drop n
      whole ++ zeros (n - whole.length) ++ '.' :: (if rest.isEmpty then ['0'] else rest)
  else
    let rest := d.digits.drop 1
    d.digits.take 1 ++ (if rest.isEmpty then [] else '.' :: rest) ++ exponentPart e

def Layout.write (layout : Layout) (x : Binary64) : String :=
  if x.isNaN then layout.undefined
  else
    let sign := if x.isNegative then "-" else ""
    if x.isInfinite then sign ++ layout.infinite
    else if x.significand = 0 then sign ++ "0.0"
    else sign ++ String.ofList (layout.place (shortest x))

def plain : Layout := ⟨-4, 16, "inf", "nan"⟩

def interchange : Layout := ⟨-4, 16, "Infinity", "NaN"⟩

def digitsValue (cs : List Char) : Nat :=
  cs.foldl (fun n c => n * 10 + (c.toNat - 48)) 0

theorem digitsValue_toDigits (n : Nat) : digitsValue (Nat.toDigits 10 n) = n := by
  have reads := @Nat.ofDigitChars_toDigits 10 n (by decide) (by decide)
  simp only [Nat.ofDigitChars, Nat.mul_comm 10] at reads
  exact reads

def read? (cs : List Char) : Option Binary64 :=
  let whole := cs.takeWhile Char.isDigit
  let rest := cs.dropWhile Char.isDigit
  let (part, rest) :=
    match rest with
    | '.' :: r => (r.takeWhile Char.isDigit, r.dropWhile Char.isDigit)
    | r => ([], r)
  let exponent? : Option Int :=
    match rest with
    | [] => some 0
    | c :: r =>
      if c = 'e' || c = 'E' then
        let (negative, ds) :=
          match r with
          | '-' :: ds => (true, ds)
          | '+' :: ds => (false, ds)
          | ds => (false, ds)
        if ds.isEmpty || !ds.all Char.isDigit then none
        else some (if negative then -(digitsValue ds : Int) else digitsValue ds)
      else none
  if whole.isEmpty && part.isEmpty then none
  else
    exponent?.map fun e => nearest false (digitsValue (whole ++ part)) (e - part.length)

end Decimal

end Modelica
