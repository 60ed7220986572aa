/-
PointPatch/Double/Decimal.lean

Reading numbers from decimal texts.

A text is an optional sign and then digits, of which some may follow a point
and at least one has to be there, with an optional exponent; or one of the
words for infinity and for NaN, in any case.  The result is the nearest
number.
-/
import PointPatch.Double.Rounding

namespace PointPatch

namespace Double

/-- Appends the decimal digits of a text to a number. -/
def readDigits (n : Nat) (ds : List Char) : Nat :=
  ds.foldl (fun n c => 10 * n + (c.toNat - 48)) n

/-- The exponent that a text writes, which is all of it; nothing stands for zero. -/
def exponentText? : List Char → Option Int
  | [] => some 0
  | c :: rest =>
    if c = 'e' ∨ c = 'E' then
      let (isNegative, ds) := match rest with
        | '-' :: ds => (true, ds)
        | '+' :: ds => (false, ds)
        | ds => (false, ds)
      if ds = [] ∨ !ds.all Char.isDigit then none
      else
        let n : Int := readDigits 0 ds
        some (if isNegative then -n else n)
    else none

/-- The number that a text without a sign writes. -/
def unsignedText? (isNegative : Bool) (cs : List Char) : Option Double :=
  let word := cs.map Char.toLower
  if word = ['i', 'n', 'f'] ∨ word = ['i', 'n', 'f', 'i', 'n', 'i', 't', 'y'] then
    some (if isNegative then -infinity else infinity)
  else if word = ['n', 'a', 'n'] then some (if isNegative then -nan else nan)
  else
    let whole := cs.takeWhile Char.isDigit
    let (fraction, rest) := match cs.dropWhile Char.isDigit with
      | '.' :: rest => (rest.takeWhile Char.isDigit, rest.dropWhile Char.isDigit)
      | rest => ([], rest)
    if whole = [] ∧ fraction = [] then none
    else
      (exponentText? rest).map fun exponent =>
        ofDecimal isNegative (readDigits (readDigits 0 whole) fraction)
          (exponent - fraction.length)

/-- The number that a text writes. -/
def ofText? : List Char → Option Double
  | '-' :: cs => unsignedText? true cs
  | '+' :: cs => unsignedText? false cs
  | cs => unsignedText? false cs

end Double

end PointPatch
