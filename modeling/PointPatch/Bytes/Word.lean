/-
PointPatch/Bytes/Word.lean

Fixed-width words as byte lists.  A word of width `w` is a natural number
below `256 ^ w`; `toLittle` and `ofLittle` are inverse on those, and the
big-endian form is the little-endian form reversed.  Writing a larger number
keeps its low bytes only.

Signed words are two's complement: `toSigned` and `ofSigned` move between the
unsigned reading and the integer it stands for.
-/
import PointPatch.Bytes.Order

namespace PointPatch

namespace Word

/-- The `w` low bytes of `n`, least significant first. -/
def toLittle : Nat → Nat → List UInt8
  | 0, _ => []
  | w + 1, n => UInt8.ofNat n :: toLittle w (n / 256)

/-- The number whose bytes are given least significant first. -/
def ofLittle : List UInt8 → Nat
  | [] => 0
  | b :: bs => b.toNat + 256 * ofLittle bs

/-- The `w` low bytes of `n` in the given order. -/
def toBytes : ByteOrder → Nat → Nat → List UInt8
  | .little, w, n => toLittle w n
  | .big, w, n => (toLittle w n).reverse

/-- The number written in the given order. -/
def ofBytes : ByteOrder → List UInt8 → Nat
  | .little, bs => ofLittle bs
  | .big, bs => ofLittle bs.reverse

/-- The integer that the unsigned `w`-byte word `n` stands for in two's complement. -/
def toSigned (w n : Nat) : Int :=
  if 2 * n < Nat.pow 256 w then n else (n : Int) - (Nat.pow 256 w : Nat)

/-- The unsigned `w`-byte word that stands for `i` in two's complement. -/
def ofSigned (w : Nat) (i : Int) : Nat :=
  (i % (Nat.pow 256 w : Nat)).toNat

/-! ### Lengths and round trips -/

@[simp] theorem length_toLittle (w n : Nat) : (toLittle w n).length = w := by
  induction w generalizing n with
  | zero => rfl
  | succ w ih => simp [toLittle, ih]

@[simp] theorem length_toBytes (o : ByteOrder) (w n : Nat) : (toBytes o w n).length = w := by
  cases o <;> simp [toBytes]

theorem toLittle_ofLittle (bs : List UInt8) : toLittle bs.length (ofLittle bs) = bs := by
  induction bs with
  | nil => rfl
  | cons b bs ih =>
    have hb := b.toNat_lt
    have h₁ : (b.toNat + 256 * ofLittle bs) / 256 = ofLittle bs := by omega
    have h₂ : UInt8.ofNat (b.toNat + 256 * ofLittle bs) = b := by
      apply UInt8.toNat_inj.1
      rw [UInt8.toNat_ofNat']
      omega
    simp only [List.length_cons, toLittle, ofLittle, h₁, h₂, ih]

theorem toBytes_ofBytes (o : ByteOrder) (bs : List UInt8) :
    toBytes o bs.length (ofBytes o bs) = bs := by
  cases o
  · have h := toLittle_ofLittle bs.reverse
    rw [List.length_reverse] at h
    simp [ofBytes, toBytes, h]
  · exact toLittle_ofLittle bs

end Word

end PointPatch
