/-
PointPatch/Proofs/Double/Rounding.lean

Which number a ratio is rounded to.

A finite number without a sign is `s * 2 ^ k` in units of the least one, and
its pattern is `k * 2 ^ 52 + s`, with a full significand unless `k` is zero
(`IsPattern`).  So a ratio of `y * 2 ^ k` units, for which `y` is in the range
of a full significand, is rounded by rounding `y` to an integer: if no integer
is between the two, then no number is between the ratio and the pattern that
this gives (`Rounds.of_units`).  This is all that is needed of rounding here.
The order of numbers carries over to what they are rounded to, and a ratio
that is itself a number is not changed (`Rounds.eq`).

`ofRatio` rounds in this way (`rounds_ofRatio`), and so natural numbers below
`2 ^ 53` go through `ofNat` as they are (`value_ofNat`).
-/
import PointPatch.Double.Rounding
import Mathlib.Algebra.Order.Field.Power
import Mathlib.Algebra.Order.Field.Rat
import Mathlib.Tactic.FieldSimp
import Mathlib.Tactic.Linarith
import Mathlib.Tactic.NormNum
import Mathlib.Tactic.Positivity
import Mathlib.Tactic.Ring

namespace PointPatch

/-! ### Integers next to a ratio -/

/-- No integer lies strictly between the two. -/
def IsNextTo (m : Nat) (y : ℚ) : Prop :=
  ∀ n : ℕ, (y ≤ n → m ≤ n) ∧ ((n : ℚ) ≤ y → n ≤ m)

theorem isNextTo_divideHalfEven (num : Nat) {den : Nat} (hden : 0 < den) :
    IsNextTo (divideHalfEven num den) (num / den) := by
  have hpos : (0 : ℚ) < den := Nat.cast_pos.2 hden
  have hnum : den * (num / den) + num % den = num := Nat.div_add_mod num den
  obtain ⟨hge, hle⟩ : num / den ≤ divideHalfEven num den
      ∧ (divideHalfEven num den ≤ num / den
        ∨ divideHalfEven num den = num / den + 1 ∧ 0 < num % den) := by
    simp only [divideHalfEven]
    split_ifs <;> omega
  intro n
  constructor
  · intro h
    rw [div_le_iff₀ hpos] at h
    have h : num ≤ n * den := by exact_mod_cast h
    rcases hle with hle | ⟨heq, hrest⟩
    · exact hle.trans (Nat.div_le_of_le_mul (by rwa [Nat.mul_comm]))
    · rw [heq]
      refine Nat.lt_of_mul_lt_mul_left (a := den) ?_
      rw [Nat.mul_comm den n]
      omega
  · intro h
    rw [le_div_iff₀ hpos] at h
    have h : n * den ≤ num := by exact_mod_cast h
    exact ((Nat.le_div_iff_mul_le hden).2 h).trans hge

namespace Double

variable {a b r t : Double} {k s m : Nat} {x y : ℚ}

/-! ### Patterns -/

/-- A finite number without a sign. -/
def IsMagnitude (a : Double) : Prop := a.bits.toNat < BinaryFormat.double.infinity

/-- What a finite number without a sign stands for. -/
def value (a : Double) : ℚ := a.significand * 2 ^ a.exponent

/-- The pattern of `s * 2 ^ k` times the least positive number. -/
structure IsPattern (a : Double) (k s : Nat) : Prop where
  bits : a.bits.toNat = k * 2 ^ 52 + s
  lt : s < 2 ^ 53
  full : k = 0 ∨ 2 ^ 52 ≤ s

theorem IsMagnitude.exists_isPattern (h : a.IsMagnitude) : ∃ k s, a.IsPattern k s := by
  change a.bits.toNat < 0x7ff0000000000000 at h
  by_cases hzero : a.bits.toNat < 2 ^ 52
  · exact ⟨0, a.bits.toNat, ⟨by omega, by omega, .inl rfl⟩⟩
  · exact ⟨a.bits.toNat / 2 ^ 52 - 1, 2 ^ 52 + a.bits.toNat % 2 ^ 52,
      ⟨by omega, by omega, .inr (by omega)⟩⟩

theorem IsPattern.significand_eq (h : a.IsPattern k s) (ha : a.IsMagnitude) :
    a.significand = s := by
  obtain ⟨hbits, hlt, hfull⟩ := h
  change a.bits.toNat < 0x7ff0000000000000 at ha
  rw [significand, exponentField, fractionField]
  change (if a.bits.toNat / 2 ^ 52 % 2 ^ 11 = 0 then a.bits.toNat % 2 ^ 52
    else 2 ^ 52 + a.bits.toNat % 2 ^ 52) = s
  split_ifs <;> omega

theorem IsPattern.exponent_eq (h : a.IsPattern k s) (ha : a.IsMagnitude) :
    a.exponent = (k : ℤ) - 1074 := by
  obtain ⟨hbits, hlt, hfull⟩ := h
  change a.bits.toNat < 0x7ff0000000000000 at ha
  rw [exponent, exponentField]
  change (if a.bits.toNat / 2 ^ 52 % 2 ^ 11 = 0 then (-1074 : ℤ)
    else ((a.bits.toNat / 2 ^ 52 % 2 ^ 11 : ℕ) : ℤ) - 1075) = _
  split_ifs <;> omega

theorem two_zpow_sub (k : ℕ) : (2 : ℚ) ^ ((k : ℤ) - 1074) = 2 ^ k / 2 ^ 1074 := by
  rw [zpow_sub₀ two_ne_zero, zpow_natCast]
  rfl

theorem IsPattern.value_eq (h : a.IsPattern k s) (ha : a.IsMagnitude) :
    a.value = s * 2 ^ k / 2 ^ 1074 := by
  rw [value, h.significand_eq ha, h.exponent_eq ha, two_zpow_sub, mul_div_assoc]

theorem IsPattern.eq_zero (h : a.IsPattern k 0) : a = zero := by
  have hbits := h.bits
  rw [h.full.resolve_right (by decide)] at hbits
  exact congrArg Double.mk (UInt64.toNat_inj.1 hbits)

theorem value_zero : zero.value = 0 := by
  rw [value, show zero.significand = 0 from rfl, Nat.cast_zero, zero_mul]

/-! ### Rounding -/

/-- No number lies strictly between the ratio and what it is rounded to. -/
structure Rounds (x : ℚ) (r : Double) : Prop where
  le_infinity : r.bits.toNat ≤ BinaryFormat.double.infinity
  le : ∀ t : Double, t.IsMagnitude → x ≤ t.value → r.bits.toNat ≤ t.bits.toNat
  ge : ∀ t : Double, t.IsMagnitude → t.value ≤ x → t.bits.toNat ≤ r.bits.toNat

/-- A number that is to be rounded is there already. -/
theorem Rounds.eq (h : Rounds x r) (ht : t.IsMagnitude) (hx : t.value = x) : r = t := by
  have hle := h.le t ht hx.ge
  have hge := h.ge t ht hx.le
  cases r
  cases t
  exact congrArg Double.mk (UInt64.toNat_inj.1 (Nat.le_antisymm hle hge))

/-- What is at the least number of units, or has a full significand, is rounded by rounding the
significand to an integer. -/
theorem Rounds.of_units (hlt : y < 2 ^ 53) (hfull : k = 0 ∨ (2 : ℚ) ^ 52 ≤ y) (hm : IsNextTo m y)
    (hr : r.bits.toNat = Nat.min BinaryFormat.double.infinity (k * 2 ^ 52 + m)) :
    Rounds (y * 2 ^ k / 2 ^ 1074) r := by
  have hunit : (0 : ℚ) < 2 ^ 1074 := by positivity
  have hmle : m ≤ 2 ^ 53 := (hm (2 ^ 53)).1 (by exact_mod_cast hlt.le)
  have hmge : k = 0 ∨ 2 ^ 52 ≤ m := hfull.imp_right fun h => (hm (2 ^ 52)).2 (by exact_mod_cast h)
  refine ⟨hr.trans_le (Nat.min_le_left _ _), fun t ht h => ?_, fun t ht h => ?_⟩
  · obtain ⟨l, s, hp⟩ := ht.exists_isPattern
    rw [hp.value_eq ht, div_le_div_iff_of_pos_right hunit] at h
    rw [hr, hp.bits]
    refine (Nat.min_le_right _ _).trans ?_
    obtain ⟨-, hslt, hsfull⟩ := hp
    rcases lt_trichotomy k l with hkl | rfl | hkl
    · omega
    · have hy := le_of_mul_le_mul_right h (by positivity)
      exact Nat.add_le_add_left ((hm s).1 hy) _
    · -- a number with a smaller exponent is below
      obtain ⟨j, rfl⟩ := Nat.exists_eq_add_of_lt hkl
      have hy : (2 : ℚ) ^ 52 ≤ y := hfull.resolve_left (by omega)
      have hs : (s : ℚ) + 1 ≤ 2 ^ 53 := by exact_mod_cast hslt
      have hj : (1 : ℚ) ≤ 2 ^ j := one_le_pow₀ one_le_two
      have hcancel : y * 2 ^ (j + 1) ≤ s := by
        refine le_of_mul_le_mul_right ?_ (show (0 : ℚ) < 2 ^ l by positivity)
        rwa [mul_assoc, ← pow_add, Nat.add_comm (j + 1) l]
      rw [pow_succ] at hcancel
      nlinarith
  · obtain ⟨l, s, hp⟩ := ht.exists_isPattern
    rw [hp.value_eq ht, div_le_div_iff_of_pos_right hunit] at h
    rw [hr]
    refine Nat.le_min.2 ⟨le_of_lt ht, ?_⟩
    rw [hp.bits]
    obtain ⟨-, hslt, hsfull⟩ := hp
    rcases lt_trichotomy k l with hkl | rfl | hkl
    · -- a number with a larger exponent is above
      obtain ⟨j, rfl⟩ := Nat.exists_eq_add_of_lt hkl
      have hs : (2 : ℚ) ^ 52 ≤ s := by exact_mod_cast hsfull.resolve_left (by omega)
      have hj : (1 : ℚ) ≤ 2 ^ j := one_le_pow₀ one_le_two
      have hcancel : (s : ℚ) * 2 ^ (j + 1) ≤ y := by
        refine le_of_mul_le_mul_right ?_ (show (0 : ℚ) < 2 ^ k by positivity)
        rwa [mul_assoc, ← pow_add, Nat.add_comm (j + 1) k]
      rw [pow_succ] at hcancel
      nlinarith
    · have hy := le_of_mul_le_mul_right h (by positivity)
      exact Nat.add_le_add_left ((hm s).2 hy) _
    · omega

/-- A number stays what it is. -/
theorem IsMagnitude.rounds_value (ht : t.IsMagnitude) : Rounds t.value t := by
  obtain ⟨k, s, h⟩ := ht.exists_isPattern
  rw [h.value_eq ht]
  refine .of_units (by exact_mod_cast h.lt) (h.full.imp_right fun hs => by exact_mod_cast hs)
    (fun n => ⟨fun hn => by exact_mod_cast hn, fun hn => by exact_mod_cast hn⟩) ?_
  rw [← h.bits]
  exact (Nat.min_eq_right ht.le).symm

theorem isMagnitude_zero : zero.IsMagnitude :=
  show 0 < 0x7ff0000000000000 by decide

theorem rounds_zero : Rounds 0 zero :=
  value_zero ▸ isMagnitude_zero.rounds_value

/-! ### Order -/

theorem isNaN_of_le_infinity (h : a.bits.toNat ≤ BinaryFormat.double.infinity) :
    a.isNaN = false := by
  change a.bits.toNat ≤ 0x7ff0000000000000 at h
  rw [isNaN, exponentField, fractionField, Bool.and_eq_false_iff, beq_eq_false_iff_ne,
    bne_eq_false_iff_eq]
  change a.bits.toNat / 2 ^ 52 % 2 ^ 11 ≠ 2047 ∨ a.bits.toNat % 2 ^ 52 = 0
  omega

theorem key_of_le_infinity (h : a.bits.toNat ≤ BinaryFormat.double.infinity) :
    a.key = a.bits.toNat := by
  change a.bits.toNat ≤ 0x7ff0000000000000 at h
  refine if_neg ?_
  rw [isNegative, decide_eq_true_eq]
  change ¬ 2 ^ 63 ≤ a.bits.toNat
  omega

theorem lt_iff_of_le_infinity (ha : a.bits.toNat ≤ BinaryFormat.double.infinity)
    (hb : b.bits.toNat ≤ BinaryFormat.double.infinity) :
    a.lt b = true ↔ a.bits.toNat < b.bits.toNat := by
  simp [lt, isNaN_of_le_infinity ha, isNaN_of_le_infinity hb, key_of_le_infinity ha,
    key_of_le_infinity hb]

/-- Being above a number after rounding is being above a ratio before, if this ratio is not above the
number and nothing is between it and the next one. -/
theorem Rounds.lt_iff {q : ℚ} {u : Double} (h : Rounds x r) (ht : t.IsMagnitude) (hq : q ≤ t.value)
    (hu : u.IsMagnitude) (htu : t.bits.toNat < u.bits.toNat) (hgap : q < x → u.value ≤ x) :
    t.lt r = true ↔ q < x := by
  rw [lt_iff_of_le_infinity ht.le h.le_infinity]
  constructor
  · intro hlt
    exact not_le.1 fun hx => Nat.not_le.2 hlt (h.le t ht (hx.trans hq))
  · exact fun hx => htu.trans_le (h.ge u hu (hgap hx))

end Double

/-! ### Ratios -/

namespace BinaryFormat

/-- A ratio is compared with a power of two by a comparison of integers. -/
theorem lt_two_zpow_iff {num den : Nat} (d : ℤ) (hden : 0 < den) :
    (num / den : ℚ) < 2 ^ d
      ↔ if 0 ≤ d then num < den * Nat.pow 2 d.toNat else num * Nat.pow 2 (-d).toNat < den := by
  have hpos : (0 : ℚ) < den := Nat.cast_pos.2 hden
  split_ifs with hd
  · obtain ⟨n, rfl⟩ := Int.eq_ofNat_of_zero_le hd
    rw [div_lt_iff₀ hpos, mul_comm, zpow_natCast, Int.toNat_natCast]
    exact_mod_cast Iff.rfl
  · obtain ⟨n, rfl⟩ := Int.exists_eq_neg_ofNat (not_le.1 hd).le
    rw [zpow_neg, zpow_natCast, neg_neg, Int.toNat_natCast, ← one_div,
      div_lt_div_iff₀ hpos (by positivity), one_mul]
    exact_mod_cast Iff.rfl

/-- The exponent of the first bit of a ratio. -/
theorem exists_exponentFor (f : BinaryFormat) {num den : Nat} (hnum : 0 < num) (hden : 0 < den) :
    ∃ top : ℤ, (2 : ℚ) ^ top ≤ num / den ∧ (num / den : ℚ) < 2 ^ (top + 1)
      ∧ f.exponentFor num den = max f.least (top - (f.precision - 1 : ℕ)) := by
  have hpos : (0 : ℚ) < den := Nat.cast_pos.2 hden
  have htwo : (0 : ℚ) < 2 := two_pos
  have hnumge : (2 : ℚ) ^ num.log2 ≤ num := by exact_mod_cast Nat.log2_self_le hnum.ne'
  have hnumlt : (num : ℚ) < 2 ^ (num.log2 + 1) := by exact_mod_cast Nat.lt_log2_self
  have hdenge : (2 : ℚ) ^ den.log2 ≤ den := by exact_mod_cast Nat.log2_self_le hden.ne'
  have hdenlt : (den : ℚ) < 2 ^ (den.log2 + 1) := by exact_mod_cast Nat.lt_log2_self
  obtain ⟨d, hd⟩ : ∃ d : ℤ, d = (num.log2 : ℤ) - den.log2 := ⟨_, rfl⟩
  have hge : (2 : ℚ) ^ (d - 1) ≤ num / den := by
    rw [le_div_iff₀ hpos]
    calc (2 : ℚ) ^ (d - 1) * den
        ≤ 2 ^ (d - 1) * 2 ^ (den.log2 + 1) := by gcongr
      _ = 2 ^ num.log2 := by
        rw [← zpow_natCast, ← zpow_natCast, ← zpow_add₀ htwo.ne']
        congr 1
        push_cast
        omega
      _ ≤ num := hnumge
  have hlt : (num / den : ℚ) < 2 ^ (d + 1) := by
    rw [div_lt_iff₀ hpos]
    calc (num : ℚ) < 2 ^ (num.log2 + 1) := hnumlt
      _ = 2 ^ (d + 1) * 2 ^ den.log2 := by
        rw [← zpow_natCast, ← zpow_natCast, ← zpow_add₀ htwo.ne']
        congr 1
        push_cast
        omega
      _ ≤ 2 ^ (d + 1) * den := by gcongr
  have hshort : f.exponentFor num den
      = max f.least ((if (num / den : ℚ) < 2 ^ d then d - 1 else d) - (f.precision - 1 : ℕ)) := by
    simp only [exponentFor, ← hd, lt_two_zpow_iff d hden]
    by_cases h : 0 ≤ d
    · simp only [if_pos h, decide_eq_true_eq]
    · simp only [if_neg h, decide_eq_true_eq]
  -- which of the two places it is
  split_ifs at hshort with hlow
  · exact ⟨d - 1, hge, by rwa [sub_add_cancel], hshort⟩
  · exact ⟨d, not_lt.1 hlow, hlt, hshort⟩

end BinaryFormat

namespace Double

variable {r : Double} {num den n j : Nat}

theorem toNat_ofMagnitude {magnitude : Nat} (h : magnitude ≤ BinaryFormat.double.infinity) :
    (ofMagnitude false magnitude).bits.toNat = magnitude :=
  UInt64.toNat_ofNat_of_lt' (Nat.lt_of_le_of_lt h (by decide))

/-- What a ratio is rounded to at an exponent. -/
theorem exists_significand (num : Nat) (e : ℤ) (hden : 0 < den) :
    IsNextTo (if 0 ≤ e then divideHalfEven num (den * Nat.pow 2 e.toNat)
      else divideHalfEven (num * Nat.pow 2 (-e).toNat) den) (num / den / 2 ^ e) := by
  split_ifs with he
  · obtain ⟨n, rfl⟩ := Int.eq_ofNat_of_zero_le he
    have h := isNextTo_divideHalfEven num (Nat.mul_pos hden (Nat.two_pow_pos n))
    rwa [Nat.cast_mul, Nat.cast_pow, Nat.cast_ofNat, ← div_div] at h
  · obtain ⟨n, rfl⟩ := Int.exists_eq_neg_ofNat (not_le.1 he).le
    have h := isNextTo_divideHalfEven (num * 2 ^ n) hden
    rw [Nat.cast_mul, Nat.cast_pow, Nat.cast_ofNat, mul_div_right_comm, ← div_inv_eq_mul,
      ← zpow_natCast, ← zpow_neg] at h
    rwa [neg_neg, Int.toNat_natCast]

theorem toNat_ofRatio (num den : Nat) :
    (ofRatio false num den).bits.toNat = BinaryFormat.double.roundRatio num den := by
  refine toNat_ofMagnitude ?_
  rw [BinaryFormat.roundRatio]
  split_ifs
  · exact Nat.zero_le _
  · exact Nat.min_le_left _ _

theorem rounds_ofRatio (num : Nat) (hden : 0 < den) :
    Rounds (num / den) (ofRatio false num den) := by
  have hbits := toNat_ofRatio num den
  rw [BinaryFormat.roundRatio] at hbits
  rcases Nat.eq_zero_or_pos num with rfl | hnum
  · have hzero : ofRatio false 0 den = zero := congrArg Double.mk (UInt64.toNat_inj.1 hbits)
    rw [hzero, Nat.cast_zero, zero_div]
    exact rounds_zero
  · obtain ⟨top, hge, hlt, he⟩ := BinaryFormat.double.exists_exponentFor hnum hden
    rw [if_neg hnum.ne'] at hbits
    generalize BinaryFormat.double.exponentFor num den = e at he hbits
    change e = Max.max (-1074) (top - (52 : ℕ)) at he
    have hvalue : (num / den : ℚ) / 2 ^ e * 2 ^ (e + 1074).toNat / 2 ^ 1074 = num / den := by
      have hk : (((e + 1074).toNat : ℕ) : ℤ) - 1074 = e := by omega
      rw [mul_div_assoc, ← two_zpow_sub, hk, div_mul_cancel₀ _ (by positivity)]
    rw [← hvalue]
    refine .of_units ?_ ?_ (exists_significand num e hden) ?_
    · rw [div_lt_iff₀ (by positivity)]
      refine hlt.trans_le ?_
      rw [← zpow_natCast, ← zpow_add₀ two_ne_zero]
      exact zpow_le_zpow_right₀ one_le_two (by push_cast; omega)
    · by_cases hleast : e = -1074
      · left
        omega
      · right
        rw [le_div_iff₀ (by positivity), ← zpow_natCast, ← zpow_add₀ two_ne_zero]
        refine le_trans ?_ hge
        exact zpow_le_zpow_right₀ one_le_two (by push_cast; omega)
    · exact hbits

/-- A number of few bits is a full significand, if enough zeros follow. -/
theorem exists_full (hpos : 0 < n) (hn : n < 2 ^ 53) :
    ∃ i ≤ 52, 2 ^ 52 ≤ n * 2 ^ i ∧ n * 2 ^ i < 2 ^ 53 := by
  have hlog : n.log2 < 53 := (Nat.log2_lt hpos.ne').2 hn
  refine ⟨52 - n.log2, Nat.sub_le _ _, ?_, ?_⟩
  · calc 2 ^ 52 = 2 ^ n.log2 * 2 ^ (52 - n.log2) := by
          rw [← Nat.pow_add]
          congr 1
          omega
      _ ≤ n * 2 ^ (52 - n.log2) := Nat.mul_le_mul_right _ (Nat.log2_self_le hpos.ne')
  · calc n * 2 ^ (52 - n.log2)
        < 2 ^ (n.log2 + 1) * 2 ^ (52 - n.log2) :=
          Nat.mul_lt_mul_of_pos_right Nat.lt_log2_self (Nat.two_pow_pos _)
      _ = 2 ^ 53 := by
          rw [← Nat.pow_add]
          congr 1
          omega

/-- A number of few bits, not too far behind the point, has a pattern. -/
theorem exists_value_eq (hn : n < 2 ^ 53) (hj : j ≤ 1000) :
    ∃ t : Double, t.IsMagnitude ∧ t.value = n / 2 ^ j := by
  rcases Nat.eq_zero_or_pos n with rfl | hpos
  · refine ⟨zero, isMagnitude_zero, ?_⟩
    rw [value_zero, Nat.cast_zero, zero_div]
  · obtain ⟨i, hi, hfull, hlt⟩ := exists_full hpos hn
    obtain ⟨k, hk⟩ : ∃ k, i + (k + j) = 1074 := ⟨1074 - i - j, by omega⟩
    have hbits : (ofMagnitude false (k * 2 ^ 52 + n * 2 ^ i)).bits.toNat = k * 2 ^ 52 + n * 2 ^ i :=
      toNat_ofMagnitude (show _ ≤ 0x7ff0000000000000 by omega)
    have ht : (ofMagnitude false (k * 2 ^ 52 + n * 2 ^ i)).IsMagnitude := by
      rw [IsMagnitude, hbits]
      change _ < 0x7ff0000000000000
      omega
    refine ⟨_, ht, ?_⟩
    rw [(IsPattern.mk hbits hlt (.inr hfull)).value_eq ht, div_eq_div_iff (by positivity)
      (by positivity), Nat.cast_mul, Nat.cast_pow, Nat.cast_ofNat, mul_assoc, mul_assoc, ← pow_add,
      ← pow_add, hk]

/-- A ratio of few bits is not changed. -/
theorem Rounds.value_eq (h : Rounds (n / 2 ^ j) r) (hn : n < 2 ^ 53) (hj : j ≤ 1000) :
    r.IsMagnitude ∧ r.value = n / 2 ^ j := by
  obtain ⟨t, ht, hvalue⟩ := exists_value_eq hn hj
  rw [h.eq ht hvalue]
  exact ⟨ht, hvalue⟩

/-- A natural number below `2 ^ 53` is not changed. -/
theorem value_ofNat (hn : n < 2 ^ 53) : (ofNat n).IsMagnitude ∧ (ofNat n).value = n := by
  have h : Rounds (n / 2 ^ 0) (ofNat n) := by
    have hround := rounds_ofRatio n Nat.one_pos
    rwa [Nat.cast_one] at hround
  have hvalue := h.value_eq hn (Nat.zero_le _)
  rwa [pow_zero, div_one] at hvalue

end Double

end PointPatch
