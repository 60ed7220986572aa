/-
PointPatch/Proofs/Bytes/Word.lean

The numbers that fixed-width words write.

A word of `w` bytes reads as a number below `256 ^ w`.  Of a number that is
written, its rest modulo `256 ^ w` is read back, so every number that fits is
read back from its own bytes.
-/
import PointPatch.Bytes.Word
import Mathlib.Algebra.Group.Nat.Defs

namespace PointPatch

namespace Word

theorem ofLittle_lt (bs : List UInt8) : ofLittle bs < 256 ^ bs.length := by
  induction bs with
  | nil => simp [ofLittle]
  | cons b bs ih =>
    have hb := b.toNat_lt
    simp only [ofLittle, List.length_cons, Nat.pow_succ]
    omega

theorem ofBytes_lt (o : ByteOrder) (bs : List UInt8) : ofBytes o bs < 256 ^ bs.length := by
  cases o
  · have h := ofLittle_lt bs.reverse
    rwa [List.length_reverse] at h
  · exact ofLittle_lt bs

/-- What is read back of a number is what fits into the word. -/
theorem ofLittle_toLittle_mod (w n : Nat) : ofLittle (toLittle w n) = n % 256 ^ w := by
  induction w generalizing n with
  | zero => exact (Nat.mod_one n).symm
  | succ w ih =>
    have hlow : (UInt8.ofNat n).toNat = n % 256 := UInt8.toNat_ofNat'
    rw [toLittle, ofLittle, ih, hlow, Nat.pow_succ', Nat.mod_mul]

theorem ofBytes_toBytes_mod (o : ByteOrder) (w n : Nat) :
    ofBytes o (toBytes o w n) = n % 256 ^ w := by
  cases o <;> simp [ofBytes, toBytes, ofLittle_toLittle_mod]

theorem ofLittle_toLittle {w n : Nat} (h : n < 256 ^ w) : ofLittle (toLittle w n) = n := by
  rw [ofLittle_toLittle_mod, Nat.mod_eq_of_lt h]

theorem ofBytes_toBytes (o : ByteOrder) {w n : Nat} (h : n < 256 ^ w) :
    ofBytes o (toBytes o w n) = n := by
  rw [ofBytes_toBytes_mod, Nat.mod_eq_of_lt h]

end Word

end PointPatch
