/-
PointPatch/Double/Shortest.lean

The shortest decimal text of a number.

A finite number `m * 2 ^ q` is the rounding of every real in an interval
around it, ends included when `m` is even.  `shortest` goes from coarse
decimal grids to fine ones and takes the first grid with a point in that
interval: no decimal with fewer digits reads back as the number.  On that
grid it takes the point nearest to the number, of two the even one.

`decimalText` lays the digits out: positionally from `10 ^ -5` up to
`10 ^ 16`, always with a point, and with a signed exponent outside.
-/
import PointPatch.Double.Rounding

namespace PointPatch

namespace Double

/-- The interval of reals that round to a number, in quarter units of its last place:
lower end, number, upper end. Below a power of two the gap is half as wide. -/
def quarters (a : Double) : Nat × Nat × Nat :=
  let m := a.significand
  (if a.fractionField = 0 ∧ 1 < a.exponentField then 4 * m - 1 else 4 * m - 2, 4 * m, 4 * m + 2)

/-- The multiple of `10 ^ k` nearest to a positive finite number among those that round to it,
given as the factor. -/
def onGrid? (a : Double) (k : Int) : Option Nat :=
  let q := a.exponent - 2
  let step := Nat.pow 10 k.toNat * Nat.pow 2 (-q).toNat
  let unit := Nat.pow 10 (-k).toNat * Nat.pow 2 q.toNat
  let (lo, mid, hi) := a.quarters
  let isInside (t : Nat) : Bool :=
    if a.significand % 2 = 0 then lo * unit ≤ t * step && t * step ≤ hi * unit
    else lo * unit < t * step && t * step < hi * unit
  let t := mid * unit / step
  if isInside t then
    if isInside (t + 1) then
      let below := mid * unit - t * step
      let above := (t + 1) * step - mid * unit
      if below < above then some t
      else if above < below then some (t + 1)
      else if t % 2 = 0 then some t else some (t + 1)
    else some t
  else if isInside (t + 1) then some (t + 1)
  else none

/-- Tries `fuel` grids from `10 ^ k` on, each ten times finer than the one before. -/
def searchGrids (a : Double) : Nat → Int → Nat × Int
  | 0, k => ((a.onGrid? k).getD 0, k)
  | fuel + 1, k =>
    match a.onGrid? k with
    | some t => (t, k)
    | none => searchGrids a fuel (k - 1)

/-- Digits and power of ten of the shortest decimal that reads back as a positive finite number.
The first grid tried is coarser than the number; 17 digits always suffice. -/
def shortest (a : Double) : Nat × Int :=
  a.searchGrids 24 (((a.significand.log2 : Int) + a.exponent) * 30103 / 100000 + 2)

/-- The text of `digits * 10 ^ power`: with a point from `10 ^ -5` up to `10 ^ 16`, and with an
exponent outside. -/
def decimalText (digits : Nat) (power : Int) : String :=
  let ds := Nat.toDigits 10 digits
  let places : Int := ds.length + power
  if 0 ≤ power ∧ places ≤ 16 then
    String.ofList (ds ++ List.replicate power.toNat '0' ++ ['.', '0'])
  else if 0 < places ∧ places ≤ 16 then
    String.ofList (ds.take places.toNat ++ '.' :: ds.drop places.toNat)
  else if -5 < places ∧ places ≤ 0 then
    String.ofList ('0' :: '.' :: List.replicate (-places).toNat '0' ++ ds)
  else
    let mantissa := match ds with
      | d :: e :: rest => d :: '.' :: e :: rest
      | short => short
    String.ofList mantissa ++ (if 0 < places then "e+" else "e") ++ toString (places - 1)

/-- The shortest text of a finite number; none for an infinity or a NaN. -/
def text? (a : Double) : Option String :=
  if !a.isFinite then none
  else
    let body :=
      if a.significand = 0 then "0.0"
      else decimalText a.shortest.1 a.shortest.2
    some (if a.isNegative then "-" ++ body else body)

end Double

end PointPatch
