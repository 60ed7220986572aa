/-
PointPatch/Bytes/Hex.lean

Bytes written as pairs of hexadecimal digits.
-/

namespace PointPatch

namespace Hex

/-- The value of a hexadecimal digit in either case. -/
def digit? (c : Char) : Option Nat :=
  let n := c.toNat
  if 48 ≤ n ∧ n ≤ 57 then some (n - 48)
  else if 97 ≤ n ∧ n ≤ 102 then some (n - 87)
  else if 65 ≤ n ∧ n ≤ 70 then some (n - 55)
  else none

/-- The two digits of a byte. -/
def ofByte (b : UInt8) : List Char :=
  [Nat.digitChar (b.toNat / 16), Nat.digitChar (b.toNat % 16)]

/-- The digits of some bytes. -/
def encode (bytes : List UInt8) : List Char := bytes.flatMap ofByte

/-- The bytes that some digits write; none for an odd number of digits or another character. -/
def decode? : List Char → Option (List UInt8)
  | [] => some []
  | a :: b :: rest => do
    let high ← digit? a
    let low ← digit? b
    return UInt8.ofNat (16 * high + low) :: (← decode? rest)
  | [_] => none

end Hex

end PointPatch
