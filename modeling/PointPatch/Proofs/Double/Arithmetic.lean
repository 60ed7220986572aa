/-
PointPatch/Proofs/Double/Arithmetic.lean

Sums, products and quotients are rounded.

The operations of `Float` unpack their numbers to a sign, a significand and an
exponent, and pack what comes out.  For finite numbers without a sign both go
by the pattern: unpacking gives its significand and its exponent
(`IsPattern.unpacked_eq`), and packing these gives the pattern again
(`toNat_pack`).

In between, the exact result is cut to a full significand place by place.  One
bit is kept for the first place that is cut off and one for all the others, so
that it can be told whether anything has been cut off; this holds after every
shift (`Encloses`), and then the rounded significand is next to the exact one.
So the result of an operation is rounded if enough places of it have been
worked out (`rounds_packed`).  A product has all of its places, a quotient has
at least 53 of them (`le_log2_div`), and to a sum the missing ones are added
(`rounds_normalize`).
-/
import Mathlib
import PointPatch.Proofs.Double.Rounding

namespace PointPatch

namespace Double

open Float.Model (Format UnpackedFloat)
open Float.Model.UnpackedFloat (Sign packComponents packedInfinity unpackExponent unpackMantissa
  unpackSign)

variable {a b : Double} {k m : Nat} {e : ℤ} {x : ℚ}

/-! ### Packing -/

theorem toNat_packComponents (exponent : BitVec 11) (mantissa : BitVec 52) :
    (packComponents Format.binary64 .positive exponent mantissa).toNat
      = exponent.toNat * 2 ^ 52 + mantissa.toNat := by
  have hzero : (Sign.positive.toBitVec ++ exponent).toNat = exponent.toNat := by
    rw [BitVec.toNat_append]
    simp [Sign.toBitVec]
  rw [packComponents, BitVec.toNat_append, hzero,
    ← Nat.shiftLeft_add_eq_or_of_lt mantissa.isLt, Nat.shiftLeft_eq]

/-- The pattern of `m * 2 ^ k` times the least positive number. -/
theorem toNat_pack (hm : 0 < m) (hlt : m < 2 ^ 53) (hfull : k = 0 ∨ 2 ^ 52 ≤ m)
    (he : e = (k : ℤ) - 1074) :
    (UnpackedFloat.pack Format.binary64 (.finite .positive m e hm)).toNat
      = Nat.min BinaryFormat.double.infinity (k * 2 ^ 52 + m) := by
  have hexponent : (e + Format.binary64.exponentBias
      + Format.binary64.mantissaBitsWithoutImplicit).toNat = k + 1 := by
    change (e + 1023 + 52).toNat = k + 1
    omega
  have hbits : m.log2 + 1 = Format.binary64.mantissaBits ↔ 2 ^ 52 ≤ m := by
    change m.log2 + 1 = 53 ↔ 2 ^ 52 ≤ m
    rw [← Nat.le_log2 hm.ne']
    have := (Nat.log2_lt hm.ne').2 hlt
    omega
  change _ = Min.min 0x7ff0000000000000 (k * 2 ^ 52 + m)
  simp only [UnpackedFloat.pack, hexponent, hbits]
  split_ifs with hlarge hnormal
  · rw [packedInfinity, toNat_packComponents]
    change 2 ^ 11 ≤ k + 1 + 1 at hlarge
    change 2047 * 2 ^ 52 + 0 = _
    omega
  · change ¬ 2 ^ 11 ≤ k + 1 + 1 at hlarge
    rw [toNat_packComponents, BitVec.toNat_ofNat, BitVec.toNat_ofNat]
    omega
  · rw [toNat_packComponents, BitVec.toNat_ofNat]
    change 0 * 2 ^ 52 + m % 2 ^ 52 = _
    omega

/-! ### Unpacking -/

variable {bits : BitVec 64}

theorem toNat_unpackExponent :
    (@unpackExponent Format.binary64 bits).toNat = bits.toNat / 2 ^ 52 % 2 ^ 11 := by
  rw [unpackExponent, BitVec.toNat_cast, BitVec.extractLsb_toNat, Nat.shiftRight_eq_div_pow]
  rfl

theorem toNat_unpackMantissa :
    (@unpackMantissa Format.binary64 bits).toNat = bits.toNat % 2 ^ 52 := by
  rw [unpackMantissa, BitVec.toNat_cast, BitVec.extractLsb_toNat, Nat.shiftRight_zero]
  rfl

theorem unpackSign_eq (h : bits.toNat < 2 ^ 63) :
    Sign.ofBitVec (@unpackSign Format.binary64 bits) = .positive := by
  refine if_pos (BitVec.eq_of_toNat_eq ?_)
  rw [unpackSign, BitVec.toNat_cast, BitVec.extractLsb_toNat, Nat.shiftRight_eq_div_pow]
  change bits.toNat / 2 ^ 63 % 2 = 0
  omega

/-- No finite number has the exponent of the infinities. -/
theorem IsMagnitude.unpackExponent_ne (ha : a.IsMagnitude) :
    @unpackExponent Format.binary64 a.bits.toBitVec ≠ -1#_ := by
  rw [Ne, ← BitVec.toNat_inj, toNat_unpackExponent]
  change a.bits.toNat < 0x7ff0000000000000 at ha
  change ¬ a.bits.toNat / 2 ^ 52 % 2 ^ 11 = 2047
  omega

/-- The sign, the significand and the exponent of a number. -/
def unpacked (a : Double) : UnpackedFloat :=
  UnpackedFloat.unpack Format.binary64 a.bits.toBitVec

theorem unpacked_zero : zero.unpacked = .zero .positive :=
  rfl

theorem IsPattern.unpacked_eq {s : Nat} (h : a.IsPattern k s) (ha : a.IsMagnitude) (hs : 0 < s) :
    a.unpacked = .finite .positive s ((k : ℤ) - 1074) hs := by
  obtain ⟨hbits, hlt, hfull⟩ := h
  rw [unpacked]
  obtain ⟨bits, hword⟩ : ∃ bits : BitVec 64, bits = a.bits.toBitVec := ⟨_, rfl⟩
  have hbits : bits.toNat = k * 2 ^ 52 + s := (congrArg BitVec.toNat hword).trans hbits
  have hfinite : a.bits.toNat < 0x7ff0000000000000 := ha
  have hsign := unpackSign_eq (show bits.toNat < 2 ^ 63 by omega)
  have htop : @unpackExponent Format.binary64 bits ≠ -1#_ := hword ▸ ha.unpackExponent_ne
  have hleast : @unpackExponent Format.binary64 bits = 0#_ ↔ s < 2 ^ 52 := by
    rw [← BitVec.toNat_inj, toNat_unpackExponent]
    change bits.toNat / 2 ^ 52 % 2 ^ 11 = 0 ↔ s < 2 ^ 52
    omega
  have hnone : @unpackMantissa Format.binary64 bits = 0#_ ↔ s = 2 ^ 52 := by
    rw [← BitVec.toNat_inj, toNat_unpackMantissa]
    change bits.toNat % 2 ^ 52 = 0 ↔ s = 2 ^ 52
    omega
  rw [← hword]
  simp only [UnpackedFloat.unpack, if_neg htop, hleast, hnone, hsign]
  split_ifs with hsub hzero
  · omega
  · congr 1
    · rw [toNat_unpackMantissa]
      omega
    · rw [toNat_unpackExponent]
      change ((bits.toNat / 2 ^ 52 % 2 ^ 11 : ℕ) : ℤ) - 1075 + 1 = _
      omega
  · congr 1
    · rw [BitVec.toNat_append, ← Nat.shiftLeft_add_eq_or_of_lt (BitVec.isLt _), Nat.shiftLeft_eq,
        toNat_unpackMantissa]
      change 1 * 2 ^ 52 + bits.toNat % 2 ^ 52 = s
      omega
    · rw [toNat_unpackExponent]
      change ((bits.toNat / 2 ^ 52 % 2 ^ 11 : ℕ) : ℤ) - 1075 = _
      omega

/-- The number that an unpacked one is packed to. -/
def packed (u : UnpackedFloat) : Double := ⟨UInt64.ofBitVec (u.pack Format.binary64)⟩

theorem IsMagnitude.packed_unpacked (ha : a.IsMagnitude) : packed a.unpacked = a := by
  have hvalid : Format.binary64.Valid a.bits.toBitVec := ⟨fun h => absurd h ha.unpackExponent_ne⟩
  rw [packed, unpacked, UnpackedFloat.pack_unpack_of_valid hvalid]

/-- The bits that arithmetic starts from are the pattern itself. -/
theorem IsMagnitude.unpack_ofBits (ha : a.IsMagnitude) :
    (Float.ofBits a.bits).toModel.unpack = a.unpacked :=
  congrArg unpacked ha.packed_unpacked

/-- An operation is that on the unpacked numbers. -/
theorem Rounds.of_lift {op : Float → Float → Float}
    {f : UnpackedFloat → UnpackedFloat → UnpackedFloat}
    (hop : ∀ v w : Float, (op v w).toModel = .pack (f v.toModel.unpack w.toModel.unpack))
    (ha : a.IsMagnitude) (hb : b.IsMagnitude)
    (h : Rounds x (packed (f a.unpacked b.unpacked))) : Rounds x (lift op a b) := by
  have hr : (⟨(op (Float.ofBits a.bits) (Float.ofBits b.bits)).toBits⟩ : Double)
      = packed (f a.unpacked b.unpacked) := by
    rw [Float.toBits, hop, ha.unpack_ofBits, hb.unpack_ofBits]
    rfl
  rw [lift, hr, if_neg, if_neg, if_neg]
  · exact h
  · rw [isNaN_of_le_infinity h.le_infinity]
    decide
  · rw [isNaN_of_le_infinity hb.le]
    decide
  · rw [isNaN_of_le_infinity ha.le]
    decide

/-! ### Rounding -/

open Float.Model.UnpackedFloat (ExtendedMantissa Accuracy accuracyOfFraction shiftToTargetExponent
  roundWithAccuracy divCore)

variable {em : ExtendedMantissa} {y : ℚ}

/-- The mantissa is the integer part, and the bits behind it tell whether this is all. -/
structure Encloses (em : ExtendedMantissa) (y : ℚ) : Prop where
  le : (em.mantissa : ℚ) ≤ y
  lt : y < em.mantissa + 1
  bits_of_eq : y = em.mantissa → em.roundBit = false ∧ em.stickyBit = false

theorem roundedMantissa_cases (em : ExtendedMantissa) :
    em.mantissa ≤ em.roundedMantissa ∧ em.roundedMantissa ≤ em.mantissa + 1
      ∧ (em.roundBit = false → em.stickyBit = false → em.roundedMantissa = em.mantissa) := by
  obtain ⟨mantissa, roundBit, stickyBit⟩ := em
  cases roundBit <;> cases stickyBit <;>
    simp [ExtendedMantissa.roundedMantissa, ExtendedMantissa.accuracy,
      Accuracy.roundToNearestEven]
  omega

theorem Encloses.isNextTo (h : Encloses em y) : IsNextTo em.roundedMantissa y := by
  obtain ⟨hge, hle, hexact⟩ := roundedMantissa_cases em
  intro n
  constructor
  · intro hn
    by_cases hy : y = em.mantissa
    · obtain ⟨hround, hsticky⟩ := h.bits_of_eq hy
      rw [hexact hround hsticky]
      rw [hy] at hn
      exact_mod_cast hn
    · have hlt : (em.mantissa : ℚ) < n := (lt_of_le_of_ne h.le (Ne.symm hy)).trans_le hn
      have hlt : em.mantissa < n := by exact_mod_cast hlt
      omega
  · intro hn
    have hlt : (n : ℚ) < em.mantissa + 1 := hn.trans_lt h.lt
    have hlt : n < em.mantissa + 1 := by exact_mod_cast hlt
    omega

theorem Encloses.shiftRightOne (h : Encloses em y) : Encloses em.shiftRightOne (y / 2) := by
  obtain ⟨hle, hlt, hbits⟩ := h
  have hparts : (em.mantissa : ℚ) = 2 * (em.mantissa / 2 : ℕ) + (em.mantissa % 2 : ℕ) := by
    exact_mod_cast (Nat.div_add_mod em.mantissa 2).symm
  have hge : (0 : ℚ) ≤ (em.mantissa % 2 : ℕ) := Nat.cast_nonneg _
  have hone : ((em.mantissa % 2 : ℕ) : ℚ) ≤ 1 := by
    exact_mod_cast Nat.le_of_lt_succ (Nat.mod_lt _ two_pos)
  refine ⟨?_, ?_, fun hy => ?_⟩
  · change ((em.mantissa / 2 : ℕ) : ℚ) ≤ y / 2
    linarith
  · change y / 2 < ((em.mantissa / 2 : ℕ) : ℚ) + 1
    linarith
  · -- no bit is dropped
    change y / 2 = ((em.mantissa / 2 : ℕ) : ℚ) at hy
    have hdropped : ((em.mantissa % 2 : ℕ) : ℚ) = 0 := by linarith
    obtain ⟨hround, hsticky⟩ := hbits (by linarith)
    have hdropped : em.mantissa % 2 = 0 := by exact_mod_cast hdropped
    simp [ExtendedMantissa.shiftRightOne, hdropped, hround, hsticky]

theorem Encloses.shiftRight (h : Encloses em y) (n : Nat) : Encloses (em >>> n) (y / 2 ^ n) := by
  induction n with
  | zero =>
    rw [pow_zero, div_one]
    exact h
  | succ n ih =>
    rw [pow_succ, ← div_div]
    exact ih.shiftRightOne

theorem encloses_exact (m : Nat) : Encloses (.ofMantissaAndAccuracy m .exact) m :=
  ⟨le_rfl, lt_add_one _, fun _ => ⟨rfl, rfl⟩⟩

theorem mantissa_ofMantissaAndAccuracy (m : Nat) (accuracy : Accuracy) :
    (ExtendedMantissa.ofMantissaAndAccuracy m accuracy).mantissa = m := by
  rcases accuracy with - | - | - | - <;> rfl

/-- A whole number of units, and what is left of the division. -/
theorem encloses_div (num : Nat) {den : Nat} (hden : 0 < den) :
    Encloses (.ofMantissaAndAccuracy (num / den) (accuracyOfFraction (num % den) den))
      (num / den) := by
  have hpos : (0 : ℚ) < den := Nat.cast_pos.2 hden
  refine ⟨?_, ?_, fun h => ?_⟩
  · rw [mantissa_ofMantissaAndAccuracy, le_div_iff₀ hpos]
    exact_mod_cast Nat.div_mul_le_self num den
  · rw [mantissa_ofMantissaAndAccuracy, div_lt_iff₀ hpos, mul_comm]
    exact_mod_cast Nat.lt_mul_div_succ num hden
  · rw [mantissa_ofMantissaAndAccuracy, div_eq_iff hpos.ne'] at h
    have h : num = num / den * den := by exact_mod_cast h
    have hrest : num % den = 0 := by
      have := Nat.div_add_mod' num den
      omega
    rw [hrest]
    exact ⟨rfl, rfl⟩

/-- The number of a rounded significand, which has one place too many if there was a carry. -/
def carried (r : Nat) (e : ℤ) : UnpackedFloat :=
  let shifted := shiftToTargetExponent Format.binary64 r e .exact
  if h : shifted.1.mantissa = 0 then .zero .positive
  else .finite .positive shifted.1.mantissa shifted.2 (Nat.pos_of_ne_zero h)

/-- How many places are cut off. -/
def surplus (m : Nat) (e : ℤ) : Nat := (Max.max (m.log2 + e - 52) (-1074) - e).toNat

theorem targetExponent_eq (m : Nat) (e : ℤ) :
    Format.binary64.targetExponent (Float.Model.totalExponent m e)
      = Max.max (m.log2 + e - 52) (-1074) := by
  change Max.max ((m.log2 : ℤ) + 1 + e - 53) (-1074) = _
  congr 1
  omega

theorem shiftToTargetExponent_eq (m : Nat) (e : ℤ) (accuracy : Accuracy) :
    shiftToTargetExponent Format.binary64 m e accuracy
      = (ExtendedMantissa.ofMantissaAndAccuracy m accuracy >>> surplus m e, e + surplus m e) := by
  rw [shiftToTargetExponent, targetExponent_eq]
  rfl

theorem carried_eq {r : Nat} (hr : 0 < r) (hlt : r < 2 ^ 53) :
    carried r ((k : ℤ) - 1074) = .finite .positive r ((k : ℤ) - 1074) hr := by
  have hlog : r.log2 < 53 := (Nat.log2_lt hr.ne').2 hlt
  have hnone : surplus r ((k : ℤ) - 1074) = 0 := by
    rw [surplus]
    omega
  simp only [carried, shiftToTargetExponent_eq, hnone]
  refine (dif_neg hr.ne').trans ?_
  congr 1
  omega

theorem carried_two_pow :
    carried (2 ^ 53) ((k : ℤ) - 1074)
      = .finite .positive (2 ^ 52) (((k + 1 : ℕ) : ℤ) - 1074) (Nat.two_pow_pos 52) := by
  have hone : surplus (2 ^ 53) ((k : ℤ) - 1074) = 1 := by
    rw [surplus, Nat.log2_two_pow]
    omega
  simp only [carried, shiftToTargetExponent_eq, hone]
  refine (dif_neg (show ¬ 2 ^ 53 / 2 = 0 by decide)).trans ?_
  congr 1
  omega

theorem toNat_packed_carried {r : Nat} (hle : r ≤ 2 ^ 53) (hfull : k = 0 ∨ 2 ^ 52 ≤ r) :
    (packed (carried r ((k : ℤ) - 1074))).bits.toNat
      = Nat.min BinaryFormat.double.infinity (k * 2 ^ 52 + r) := by
  rcases Nat.eq_zero_or_pos r with rfl | hr
  · obtain rfl : k = 0 := hfull.resolve_right (by decide)
    rfl
  · rcases Nat.lt_or_eq_of_le hle with hlt | rfl
    · rw [carried_eq hr hlt]
      exact toNat_pack hr hlt hfull rfl
    · rw [carried_two_pow]
      have hpack := toNat_pack (k := k + 1) (Nat.two_pow_pos 52) (by decide) (.inr le_rfl) rfl
      rwa [Nat.succ_mul, Nat.add_assoc] at hpack

theorem roundWithAccuracy_eq (m : Nat) (e : ℤ) (accuracy : Accuracy) :
    roundWithAccuracy Format.binary64 .positive m e accuracy
      = carried (ExtendedMantissa.ofMantissaAndAccuracy m accuracy >>> surplus m e).roundedMantissa
        (e + surplus m e) := by
  rw [roundWithAccuracy, shiftToTargetExponent_eq]
  rfl

/-- The result of an operation is rounded, if it is worked out to enough places. -/
theorem rounds_packed {accuracy : Accuracy} (he : e ≤ Max.max (m.log2 + e - 52) (-1074))
    (hy : Encloses (.ofMantissaAndAccuracy m accuracy) y) :
    Rounds (y * 2 ^ e) (packed (roundWithAccuracy Format.binary64 .positive m e accuracy)) := by
  obtain ⟨n, hn⟩ : ∃ n, surplus m e = n := ⟨_, rfl⟩
  obtain ⟨k, hk⟩ : ∃ k : ℕ, e + n = (k : ℤ) - 1074 := ⟨(e + n + 1074).toNat, by
    rw [surplus] at hn
    omega⟩
  have hvalue : y * 2 ^ e = y / 2 ^ n * 2 ^ k / 2 ^ 1074 := by
    rw [mul_div_assoc, ← two_zpow_sub, ← hk, zpow_add₀ two_ne_zero, zpow_natCast]
    field_simp
  have hnext := (hy.shiftRight n).isNextTo
  obtain ⟨hle, hlt, -⟩ := hy
  rw [mantissa_ofMantissaAndAccuracy] at hle hlt
  have hsurplus := hn
  rw [surplus] at hsurplus
  have hscaled : y / 2 ^ n < 2 ^ 53 := by
    have hm : m + 1 ≤ 2 ^ (53 + n) :=
      Nat.lt_log2_self.trans_le (Nat.pow_le_pow_right two_pos (by omega))
    rw [div_lt_iff₀ (by positivity), ← pow_add]
    exact hlt.trans_le (by exact_mod_cast hm)
  have hfull : k = 0 ∨ (2 : ℚ) ^ 52 ≤ y / 2 ^ n := by
    by_cases hk0 : k = 0
    · exact .inl hk0
    · have hlog : 52 + n = m.log2 := by omega
      have hm : 2 ^ (52 + n) ≤ m := by
        rw [hlog]
        refine Nat.log2_self_le fun h => ?_
        rw [h, Nat.log2_zero] at hlog
        omega
      rw [le_div_iff₀ (by positivity), ← pow_add]
      exact .inr (le_trans (by exact_mod_cast hm) hle)
  rw [roundWithAccuracy_eq, hn, hk, hvalue]
  refine .of_units hscaled hfull hnext (toNat_packed_carried ?_ ?_)
  · exact (hnext (2 ^ 53)).1 (by exact_mod_cast hscaled.le)
  · exact hfull.imp_right fun h => (hnext (2 ^ 52)).2 (by exact_mod_cast h)

/-! ### Operations -/

/-- A finite number without a sign is zero or has a positive significand. -/
theorem IsMagnitude.zero_or_finite (ha : a.IsMagnitude) :
    a = zero ∨ ∃ s e, ∃ hs : 0 < s,
      a.unpacked = .finite .positive s e hs ∧ a.value = s * 2 ^ e
        ∧ (2 ^ 52 ≤ s ∨ e = -1074) := by
  obtain ⟨k, s, h⟩ := ha.exists_isPattern
  rcases Nat.eq_zero_or_pos s with rfl | hs
  · exact .inl h.eq_zero
  · right
    refine ⟨s, (k : ℤ) - 1074, hs, h.unpacked_eq ha hs, ?_, ?_⟩
    · rw [h.value_eq ha, two_zpow_sub, mul_div_assoc]
    · rcases h.full with rfl | hfull
      · exact .inr rfl
      · exact .inl hfull

theorem rounds_mul (ha : a.IsMagnitude) (hb : b.IsMagnitude) :
    Rounds (a.value * b.value) (a * b) := by
  refine Rounds.of_lift (f := UnpackedFloat.mul Format.binary64) (fun _ _ => rfl) ha hb ?_
  rcases ha.zero_or_finite with rfl | ⟨s, e, hs, ha, hvalue, hfull⟩
  · rw [value_zero, zero_mul]
    rcases hb.zero_or_finite with rfl | ⟨s', e', hs', hb, -, -⟩
    · exact rounds_zero
    · rw [hb]
      exact rounds_zero
  · rcases hb.zero_or_finite with rfl | ⟨s', e', hs', hb, hvalue', hfull'⟩
    · rw [value_zero, mul_zero, ha]
      exact rounds_zero
    · rw [ha, hb]
      change Rounds _ (packed (roundWithAccuracy Format.binary64 .positive (s * s') (e + e') .exact))
      have hexact : a.value * b.value = (s * s' : ℕ) * 2 ^ (e + e') := by
        rw [hvalue, hvalue', zpow_add₀ two_ne_zero, Nat.cast_mul]
        ring
      rw [hexact]
      refine rounds_packed ?_ (encloses_exact _)
      have hlog : 2 ^ 52 ≤ s * s' → 52 ≤ (s * s').log2 := (Nat.le_log2 (Nat.mul_pos hs hs').ne').2
      have hle : s ≤ s * s' := Nat.le_mul_of_pos_right s hs'
      have hle' : s' ≤ s * s' := Nat.le_mul_of_pos_left s' hs
      omega

/-- The quotient has as many places as are needed. -/
theorem le_log2_div {s s' n : Nat} (hs : 0 < s) (hs' : 0 < s') (hn : s'.log2 + 53 ≤ s.log2 + n) :
    52 ≤ (s <<< n / s').log2 := by
  have hge : 2 ^ 52 ≤ s <<< n / s' := by
    rw [Nat.le_div_iff_mul_le hs', Nat.shiftLeft_eq]
    calc 2 ^ 52 * s'
        ≤ 2 ^ 52 * 2 ^ (s'.log2 + 1) := Nat.mul_le_mul_left _ Nat.lt_log2_self.le
      _ = 2 ^ (s'.log2 + 53) := by
          rw [← Nat.pow_add]
          congr 1
          omega
      _ ≤ 2 ^ (s.log2 + n) := Nat.pow_le_pow_right two_pos hn
      _ = 2 ^ s.log2 * 2 ^ n := Nat.pow_add _ _ _
      _ ≤ s * 2 ^ n := Nat.mul_le_mul_right _ (Nat.log2_self_le hs.ne')
  exact (Nat.le_log2 (by omega)).2 hge

theorem rounds_div (ha : a.IsMagnitude) (hb : b.IsMagnitude) (hpos : 0 < b.value) :
    Rounds (a.value / b.value) (a / b) := by
  refine Rounds.of_lift (f := UnpackedFloat.div Format.binary64) (fun _ _ => rfl) ha hb ?_
  rcases hb.zero_or_finite with rfl | ⟨s', e', hs', hb, hvalue', hfull'⟩
  · rw [value_zero] at hpos
    exact absurd hpos (lt_irrefl 0)
  · rw [hb]
    rcases ha.zero_or_finite with rfl | ⟨s, e, hs, ha, hvalue, hfull⟩
    · rw [value_zero, zero_div]
      exact rounds_zero
    · rw [ha]
      obtain ⟨t, ht⟩ : ∃ t : ℤ, t = Min.min (e - e')
          (Max.max (s.log2 + 1 + e - (s'.log2 + 1 + e') - 53) (-1074)) := ⟨_, rfl⟩
      obtain ⟨n, hn⟩ : ∃ n : ℕ, n = (e - e' - t).toNat := ⟨_, rfl⟩
      have hcore : divCore Format.binary64 s e s' e'
          = (s <<< n / s', t, accuracyOfFraction (s <<< n % s') s') := by
        rw [hn, ht]
        rfl
      have hexact : a.value / b.value = ((s <<< n : ℕ) / s' : ℚ) * 2 ^ t := by
        have hshift : e = e' + n + t := by omega
        rw [hvalue, hvalue', hshift, zpow_add₀ two_ne_zero, zpow_add₀ two_ne_zero, zpow_natCast,
          Nat.shiftLeft_eq, Nat.cast_mul, Nat.cast_pow, Nat.cast_ofNat]
        field_simp
      rw [hexact]
      change Rounds _ (packed (
        let core := divCore Format.binary64 s e s' e'
        roundWithAccuracy Format.binary64 .positive core.1 core.2.1 core.2.2))
      rw [hcore]
      refine rounds_packed ?_ (encloses_div _ hs')
      change t ≤ Max.max (((s <<< n / s').log2 : ℤ) + t - 52) (-1074)
      by_cases hleast : t ≤ -1074
      · exact hleast.trans (le_max_right _ _)
      · have hlog := le_log2_div hs hs' (n := n) (by omega)
        omega

theorem natCast_shiftLeft_mul_zpow (s n : Nat) (e : ℤ) :
    ((s <<< n : ℕ) : ℚ) * 2 ^ (e - n) = s * 2 ^ e := by
  rw [Nat.shiftLeft_eq, Nat.cast_mul, Nat.cast_pow, Nat.cast_ofNat, zpow_sub₀ two_ne_zero,
    zpow_natCast]
  field_simp

/-- An exact result is rounded, however many places it has. -/
theorem rounds_normalize (hm : 0 < m) (e : ℤ) :
    Rounds (m * 2 ^ e) (packed (UnpackedFloat.normalize Format.binary64 m e .positive)) := by
  obtain ⟨n, hn⟩ : ∃ n : ℕ, n = (e - Max.max (m.log2 + e - 52) (-1074)).toNat := ⟨_, rfl⟩
  have hround : UnpackedFloat.normalize Format.binary64 m e .positive
      = roundWithAccuracy Format.binary64 .positive (m <<< n) (e - n) .exact := by
    have hgt : compare (m : ℤ) 0 = .gt := Int.compare_eq_gt.2 (by omega)
    rw [UnpackedFloat.normalize, hgt]
    change UnpackedFloat.round Format.binary64 .positive m e = _
    rw [UnpackedFloat.round, targetExponent_eq, hn]
    rfl
  rw [hround, ← natCast_shiftLeft_mul_zpow m n e]
  refine rounds_packed ?_ (encloses_exact _)
  have hlog : m.log2 + n ≤ (m <<< n).log2 := by
    rw [Nat.le_log2 (Nat.shiftLeft_pos_iff.2 hm).ne', Nat.shiftLeft_eq, Nat.pow_add]
    exact Nat.mul_le_mul_right _ (Nat.log2_self_le hm.ne')
  omega

theorem rounds_add (ha : a.IsMagnitude) (hb : b.IsMagnitude) :
    Rounds (a.value + b.value) (a + b) := by
  refine Rounds.of_lift (f := UnpackedFloat.add Format.binary64) (fun _ _ => rfl) ha hb ?_
  rcases ha.zero_or_finite with rfl | ⟨s, e, hs, ha', hvalue, -⟩
  · rw [value_zero, zero_add]
    have hsum : UnpackedFloat.add Format.binary64 (.zero .positive) b.unpacked = b.unpacked := by
      rcases hb.zero_or_finite with rfl | ⟨s', e', hs', hb', -, -⟩
      · rfl
      · rw [hb']
        rfl
    rw [unpacked_zero, hsum, hb.packed_unpacked]
    exact hb.rounds_value
  · rcases hb.zero_or_finite with rfl | ⟨s', e', hs', hb', hvalue', -⟩
    · have hsum : UnpackedFloat.add Format.binary64 (.finite .positive s e hs) (.zero .positive)
          = .finite .positive s e hs := rfl
      rw [value_zero, add_zero, unpacked_zero, ha', hsum, ← ha', ha.packed_unpacked]
      exact ha.rounds_value
    · rw [ha', hb']
      obtain ⟨least, hleast⟩ : ∃ least : ℤ, least = Min.min e e' := ⟨_, rfl⟩
      obtain ⟨n, hn⟩ : ∃ n : ℕ, n = (e - least).toNat := ⟨_, rfl⟩
      obtain ⟨n', hn'⟩ : ∃ n' : ℕ, n' = (e' - least).toNat := ⟨_, rfl⟩
      have hexact : a.value + b.value = ((s <<< n + s' <<< n' : ℕ) : ℚ) * 2 ^ least := by
        rw [hvalue, hvalue', ← natCast_shiftLeft_mul_zpow s n, ← natCast_shiftLeft_mul_zpow s' n',
          show e - n = least by omega, show e' - n' = least by omega, Nat.cast_add, add_mul]
      have hsum : UnpackedFloat.add Format.binary64 (.finite .positive s e hs)
          (.finite .positive s' e' hs')
          = UnpackedFloat.normalize Format.binary64 (s <<< n + s' <<< n' : ℕ) least .positive := by
        rw [hn, hn', hleast, Int.natCast_add]
        rfl
      rw [hexact, hsum]
      exact rounds_normalize (Nat.add_pos_left (Nat.shiftLeft_pos_iff.2 hs) _) least

end Double

end PointPatch
