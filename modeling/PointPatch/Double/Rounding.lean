/-
PointPatch/Double/Rounding.lean

Rounding of exact ratios to the two binary floating-point formats, and of
numbers to integers.

Within one format the magnitude patterns of the finite numbers count up
evenly: the pattern of `s * 2 ^ e`, with `s` a full significand or `e` the
least exponent, is `(e - least) * 2 ^ (precision - 1) + s`.  So `roundRatio`
chooses the exponent, rounds the quotient half to even, and adds.  Every
conversion below is an instance of it: integers, decimal texts, and the
passage between double and single precision.
-/
import PointPatch.Double.Basic

namespace PointPatch

/-- A binary floating-point format, as far as magnitudes are concerned. -/
structure BinaryFormat where
  /-- How many bits a full significand has. -/
  precision : Nat
  /-- The exponent of the least positive number. -/
  least : Int
  /-- The magnitude pattern of infinity. -/
  infinity : Nat

/-- Single precision: 32 bits, 24 of them significant. -/
def BinaryFormat.single : BinaryFormat := ⟨24, -149, 0x7f800000⟩

/-- Double precision: 64 bits, 53 of them significant. -/
def BinaryFormat.double : BinaryFormat := ⟨53, -1074, 0x7ff0000000000000⟩

/-- The integer nearest to `num / den`; of two, the even one. -/
def divideHalfEven (num den : Nat) : Nat :=
  let q := num / den
  let r := num % den
  if 2 * r < den then q
  else if den < 2 * r then q + 1
  else if q % 2 = 0 then q else q + 1

/-- The integer nearest to `num / den`; of two, the larger one. -/
def divideHalfUp (num den : Nat) : Nat :=
  (2 * num + den) / (2 * den)

namespace BinaryFormat

/-- The exponent at which `num / den` has a full significand, or the least one. -/
def exponentFor (f : BinaryFormat) (num den : Nat) : Int :=
  let d : Int := (num.log2 : Int) - den.log2
  let isShort : Bool :=
    if 0 ≤ d then num < den * Nat.pow 2 d.toNat else num * Nat.pow 2 (-d).toNat < den
  max f.least ((if isShort then d - 1 else d) - (f.precision - 1 : Nat))

/-- The magnitude pattern nearest to `num / den`, half to even; past the largest number,
infinity. -/
def roundRatio (f : BinaryFormat) (num den : Nat) : Nat :=
  if num = 0 then 0
  else
    let e := f.exponentFor num den
    let s :=
      if 0 ≤ e then divideHalfEven num (den * Nat.pow 2 e.toNat)
      else divideHalfEven (num * Nat.pow 2 (-e).toNat) den
    Nat.min f.infinity ((e - f.least).toNat * Nat.pow 2 (f.precision - 1) + s)

end BinaryFormat

namespace Double

/-- The number of the given sign and magnitude pattern. -/
def ofMagnitude (isNegative : Bool) (magnitude : Nat) : Double :=
  ⟨UInt64.ofNat (magnitude + if isNegative then Nat.pow 2 63 else 0)⟩

/-- The number nearest to `± num / den`. -/
def ofRatio (isNegative : Bool) (num den : Nat) : Double :=
  ofMagnitude isNegative (BinaryFormat.double.roundRatio num den)

/-- The number nearest to a natural number. -/
def ofNat (n : Nat) : Double := ofRatio false n 1

/-- The number nearest to an integer. -/
def ofInt (i : Int) : Double := ofRatio (i < 0) i.natAbs 1

/-- The magnitude of a finite number as a ratio of naturals. -/
def ratio (a : Double) : Nat × Nat :=
  if 0 ≤ a.exponent then (a.significand * Nat.pow 2 a.exponent.toNat, 1)
  else (a.significand, Nat.pow 2 (-a.exponent).toNat)

/-- The integer nearest to a finite number, half away from zero. -/
def round (a : Double) : Int :=
  let r : Int := divideHalfUp a.ratio.1 a.ratio.2
  if a.isNegative then -r else r

/-- The nearest integer between `lo` and `hi`; a NaN counts as zero. -/
def roundWithin (lo hi : Int) (a : Double) : Int :=
  if a.isNaN then 0
  else if a.isFinite then Max.max lo (Min.min hi a.round)
  else if a.isNegative then lo else hi

/-- The pattern of the nearest single precision number. A NaN keeps the top of its payload. -/
def toSingle (a : Double) : Nat :=
  let sign := if a.isNegative then Nat.pow 2 31 else 0
  if a.isNaN then sign + 0x7f800000 + (a.quiet.fractionField / Nat.pow 2 29)
  else if a.isFinite then sign + BinaryFormat.single.roundRatio a.ratio.1 a.ratio.2
  else sign + BinaryFormat.single.infinity

/-- The number that a single precision pattern stands for. A NaN keeps its payload, made quiet. -/
def ofSingle (n : Nat) : Double :=
  let isNegative : Bool := Nat.pow 2 31 ≤ n % Nat.pow 2 32
  let exponentField := n / Nat.pow 2 23 % Nat.pow 2 8
  let fraction := n % Nat.pow 2 23
  if exponentField = 255 then
    let special := ofMagnitude isNegative (0x7ff0000000000000 + fraction * Nat.pow 2 29)
    if fraction = 0 then special else special.quiet
  else if exponentField = 0 then ofRatio isNegative fraction (Nat.pow 2 149)
  else if 150 ≤ exponentField then
    ofRatio isNegative ((Nat.pow 2 23 + fraction) * Nat.pow 2 (exponentField - 150)) 1
  else ofRatio isNegative (Nat.pow 2 23 + fraction) (Nat.pow 2 (150 - exponentField))

/-- The number nearest to `± digits * 10 ^ power`. Powers so far out that the result is
certainly infinite or zero are not worked out. -/
def ofDecimal (isNegative : Bool) (digits : Nat) (power : Int) : Double :=
  if digits = 0 then ofMagnitude isNegative 0
  else if 400 < power then ofMagnitude isNegative BinaryFormat.double.infinity
  else if 0 ≤ power then ofRatio isNegative (digits * Nat.pow 10 power.toNat) 1
  else if power < -(400 + (digits.log2 : Int)) then ofMagnitude isNegative 0
  else ofRatio isNegative digits (Nat.pow 10 (-power).toNat)

end Double

end PointPatch
