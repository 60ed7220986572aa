/-
PointPatch/Proofs/Bytes/Bits.lean

Bits, most significant first: as numbers, packed into bytes, and shared by
all words of a list.

`lowBits` and `ofBits` are inverse to each other on numbers below `2 ^ k` and
lists of `k` bits.  Unpacking what was packed gives the bits back, followed
by the zeros that filled up the last byte (`unpackBits_packBits`), and no
other bytes do that (`IsPacked.unique`).

The leading bits that `commonBits` finds are those on which all words agree:
every word is made of them and of its own low bits (`commonBits_or_mod`).
-/
import PointPatch.Column.Sigbits
import PointPatch.Proofs.Bytes.Pieces
import Mathlib.Tactic.Ring

namespace PointPatch

/-! ### Bits of a number -/

@[simp] theorem ofBits_nil : ofBits [] = 0 := rfl

theorem foldl_bits (bits : List Bool) (n : Nat) :
    bits.foldl (fun n b => 2 * n + b.toNat) n = n * 2 ^ bits.length + ofBits bits := by
  induction bits generalizing n with
  | nil => simp
  | cons b bits ih =>
    rw [ofBits, List.foldl_cons, List.foldl_cons, ih, ih]
    simp only [List.length_cons, Nat.pow_succ]
    ring

theorem ofBits_cons (b : Bool) (bits : List Bool) :
    ofBits (b :: bits) = b.toNat * 2 ^ bits.length + ofBits bits := by
  rw [ofBits, List.foldl_cons, foldl_bits]
  simp

theorem ofBits_append (a b : List Bool) :
    ofBits (a ++ b) = ofBits a * 2 ^ b.length + ofBits b := by
  rw [ofBits, List.foldl_append, foldl_bits]
  rfl

theorem ofBits_lt (bits : List Bool) : ofBits bits < 2 ^ bits.length := by
  induction bits with
  | nil => simp
  | cons b bits ih =>
    have hb : b.toNat * 2 ^ bits.length ≤ 2 ^ bits.length := by
      cases b <;> simp
    rw [ofBits_cons, List.length_cons, Nat.pow_succ]
    omega

theorem ofBits_replicate_false (k : Nat) : ofBits (List.replicate k false) = 0 := by
  induction k with
  | zero => rfl
  | succ k ih => simp [List.replicate_succ, ofBits_cons, ih]

theorem ofBits_lowBits (k n : Nat) : ofBits (lowBits k n) = n % 2 ^ k := by
  induction k with
  | zero => simp [lowBits, Nat.mod_one]
  | succ k ih =>
    rw [lowBits, ofBits_cons, ih, length_lowBits, Nat.mod_pow_succ, Nat.toNat_testBit]
    ring

/-- The low bits of a number do not depend on the others. -/
theorem lowBits_mod {j k : Nat} (h : j ≤ k) (n : Nat) : lowBits j (n % 2 ^ k) = lowBits j n := by
  induction j with
  | zero => rfl
  | succ j ih =>
    have hj : decide (j < k) = true := decide_eq_true h
    rw [lowBits, lowBits, ih (Nat.le_of_succ_le h), Nat.testBit_mod_two_pow, hj, Bool.true_and]

theorem lowBits_ofBits (bits : List Bool) : lowBits bits.length (ofBits bits) = bits := by
  induction bits with
  | nil => rfl
  | cons b bits ih =>
    have hlt := ofBits_lt bits
    have hmod : ofBits (b :: bits) % 2 ^ bits.length = ofBits bits := by
      rw [ofBits_cons, Nat.add_comm, Nat.add_mul_mod_self_right, Nat.mod_eq_of_lt hlt]
    have hhead : (ofBits (b :: bits)).testBit bits.length = b := by
      rw [Nat.testBit_eq_decide_div_mod_eq, ofBits_cons, Nat.add_comm,
        Nat.add_mul_div_right _ _ (Nat.two_pow_pos _), Nat.div_eq_of_lt hlt]
      cases b <;> rfl
    rw [List.length_cons, lowBits, hhead, ← lowBits_mod (Nat.le_refl _), hmod, ih]

/-! ### Bits packed into bytes -/

theorem length_packBits (bits : List Bool) :
    (packBits bits).length = (bits.length + 7) / 8 := by
  simp [packBits]

@[simp] theorem length_unpackBits (bytes : List UInt8) :
    (unpackBits bytes).length = 8 * bytes.length := by
  induction bytes with
  | nil => rfl
  | cons b bytes ih =>
    rw [unpackBits, List.flatMap_cons, List.length_append, length_lowBits, ← unpackBits, ih,
      List.length_cons]
    omega

/-- The bits of a byte that up to eight bits were packed into. -/
theorem lowBits_packed {piece : List Bool} (h : piece.length ≤ 8) :
    lowBits 8 (UInt8.ofNat (ofBits piece * 2 ^ (8 - piece.length))).toNat
      = piece ++ List.replicate (8 - piece.length) false := by
  have hlen : (piece ++ List.replicate (8 - piece.length) false).length = 8 := by
    rw [List.length_append, List.length_replicate]
    omega
  have hvalue : ofBits piece * 2 ^ (8 - piece.length)
      = ofBits (piece ++ List.replicate (8 - piece.length) false) := by
    rw [ofBits_append, List.length_replicate, ofBits_replicate_false, Nat.add_zero]
  have hlt := ofBits_lt (piece ++ List.replicate (8 - piece.length) false)
  have hbits := lowBits_ofBits (piece ++ List.replicate (8 - piece.length) false)
  rw [hlen] at hlt hbits
  rw [hvalue, UInt8.toNat_ofNat_of_lt' hlt, hbits]

theorem unpackBits_chunksOf {count : Nat} {bits : List Bool} (h : bits.length ≤ 8 * count) :
    unpackBits ((chunksOf 8 count bits).map fun piece =>
        UInt8.ofNat (ofBits piece * 2 ^ (8 - piece.length)))
      = bits ++ List.replicate (8 * count - bits.length) false := by
  induction count generalizing bits with
  | zero =>
    obtain rfl : bits = [] := List.length_eq_zero_iff.1 (Nat.le_zero.1 h)
    rfl
  | succ count ih =>
    have htake : (bits.take 8).length ≤ 8 := by
      rw [List.length_take]
      exact Nat.min_le_left _ _
    have hdrop : (bits.drop 8).length ≤ 8 * count := by
      rw [List.length_drop]
      omega
    have hrest := ih hdrop
    rw [unpackBits] at hrest
    rw [chunksOf, List.map_cons, unpackBits, List.flatMap_cons, lowBits_packed htake, hrest]
    rcases Nat.lt_or_ge bits.length 8 with hlt | hge
    · -- the last byte that holds bits at all
      rw [List.take_of_length_le (Nat.le_of_lt hlt), List.drop_of_length_le (Nat.le_of_lt hlt),
        List.nil_append, List.append_assoc, ← List.replicate_add]
      congr 2
      simp only [List.length_nil]
      omega
    · have hfull : (bits.take 8).length = 8 := by
        rw [List.length_take, Nat.min_eq_left hge]
      rw [hfull, Nat.sub_self, List.replicate_zero, List.append_nil, ← List.append_assoc,
        List.take_append_drop, List.length_drop]
      congr 2
      omega

/-- Unpacking what was packed gives the bits back, and the zeros that filled up the last byte. -/
theorem unpackBits_packBits (bits : List Bool) :
    unpackBits (packBits bits)
      = bits ++ List.replicate (8 * ((bits.length + 7) / 8) - bits.length) false :=
  unpackBits_chunksOf (by omega)

theorem unpackBits_injective {a b : List UInt8} (h : unpackBits a = unpackBits b) : a = b := by
  have hback : ∀ bytes : List UInt8,
      (chunks 8 (unpackBits bytes)).map (fun piece => UInt8.ofNat (ofBits piece)) = bytes := by
    intro bytes
    have hid : bytes.map ((fun piece => UInt8.ofNat (ofBits piece)) ∘ fun b => lowBits 8 b.toNat)
        = bytes.map id := by
      refine List.map_congr_left ?_
      intro b _
      show UInt8.ofNat (ofBits (lowBits 8 b.toNat)) = b
      rw [ofBits_lowBits, Nat.mod_eq_of_lt b.toNat_lt, UInt8.ofNat_toNat]
    rw [unpackBits, chunks_flatMap (by decide) fun b _ => length_lowBits 8 b.toNat, List.map_map,
      hid, List.map_id]
  rw [← hback a, h, hback b]

/-- Whether bytes hold some bits, most significant first, with fewer than eight zeros to fill up
the last byte. -/
def IsPacked (bits : List Bool) (bytes : List UInt8) : Prop :=
  ∃ k < 8, unpackBits bytes = bits ++ List.replicate k false

theorem isPacked_packBits (bits : List Bool) : IsPacked bits (packBits bits) :=
  ⟨8 * ((bits.length + 7) / 8) - bits.length, by omega, unpackBits_packBits bits⟩

/-- There is only one way to pack bits. -/
theorem IsPacked.unique {bits : List Bool} {a b : List UInt8} (ha : IsPacked bits a)
    (hb : IsPacked bits b) : a = b := by
  obtain ⟨j, hj, ha⟩ := ha
  obtain ⟨k, hk, hb⟩ := hb
  have hlenA := congrArg List.length ha
  have hlenB := congrArg List.length hb
  simp only [length_unpackBits, List.length_append, List.length_replicate] at hlenA hlenB
  -- whole bytes leave no choice of how many zeros there are
  obtain rfl : j = k := by omega
  exact unpackBits_injective (ha.trans hb.symm)

/-! ### Shared leading bits -/

theorem testBit_foldl_and (words : List Nat) (start i : Nat) :
    (words.foldl (· &&& ·) start).testBit i
      = (start.testBit i && words.all fun w => w.testBit i) := by
  induction words generalizing start with
  | nil => simp
  | cons w words ih => rw [List.foldl_cons, ih, Nat.testBit_and, List.all_cons, Bool.and_assoc]

theorem testBit_foldl_or (words : List Nat) (start i : Nat) :
    (words.foldl (· ||| ·) start).testBit i
      = (start.testBit i || words.any fun w => w.testBit i) := by
  induction words generalizing start with
  | nil => simp
  | cons w words ih => rw [List.foldl_cons, ih, Nat.testBit_or, List.any_cons, Bool.or_assoc]

theorem commonBits_fst_le (width : Nat) (words : List Nat) :
    (commonBits width words).1 ≤ width := by
  rw [commonBits]
  split
  · exact Nat.le_refl _
  · simp only
    split
    · exact Nat.le_refl _
    · exact Nat.sub_le _ _

theorem commonBits_snd_lt (width : Nat) (words : List Nat) :
    (commonBits width words).2 < 2 ^ width := by
  rw [commonBits]
  split
  · exact Nat.two_pow_pos width
  · refine Nat.lt_pow_two_of_testBit _ ?_
    intro i hi
    simp only [Nat.testBit_shiftLeft, Nat.testBit_shiftRight, testBit_foldl_and, Nat.pow_eq,
      Nat.testBit_two_pow_sub_one, Bool.and_eq_false_iff, decide_eq_false_iff_not]
    omega

/-- A number below `2 ^ k` has no bits from place `k` on. -/
theorem testBit_of_lt_two_pow {n k i : Nat} (h : n < 2 ^ k) (hi : k ≤ i) : n.testBit i = false :=
  Nat.testBit_lt_two_pow (Nat.lt_of_lt_of_le h (Nat.pow_le_pow_right (by decide) hi))

/-- The bits in which words differ are own bits. -/
theorem differing_lt {width differing : Nat} (h : differing < 2 ^ width) :
    differing < 2 ^ (width - if differing = 0 then width else width - (differing.log2 + 1)) := by
  split
  · rename_i h0
    simp [h0]
  · rename_i h0
    have hlog : differing.log2 + 1 ≤ width := (Nat.log2_lt h0).2 h
    rw [Nat.sub_sub_self hlog]
    exact Nat.lt_log2_self

section

variable {width n i : Nat} {words : List Nat} {w : Nat}

/-- A bit that all words have is one that each of them has. -/
theorem testBit_of_foldl_and (hw : w ∈ words)
    (h : (words.foldl (· &&& ·) n).testBit i = true) : w.testBit i = true := by
  rw [testBit_foldl_and, Bool.and_eq_true, List.all_eq_true] at h
  exact h.2 w hw

/-- A bit that one word has is one that some word has. -/
theorem testBit_foldl_or_of_mem (hw : w ∈ words) (h : w.testBit i = true) :
    (words.foldl (· ||| ·) n).testBit i = true := by
  rw [testBit_foldl_or, Bool.or_eq_true, List.any_eq_true]
  exact .inr ⟨w, hw, h⟩

/-- Words do not differ outside of their width. -/
theorem xor_foldl_lt (hwords : ∀ w ∈ words, w < 2 ^ width) (hne : words ≠ []) :
    words.foldl (· &&& ·) n ^^^ words.foldl (· ||| ·) 0 < 2 ^ width := by
  refine Nat.lt_pow_two_of_testBit _ ?_
  intro i hi
  have hclear : ∀ v ∈ words, v.testBit i = false :=
    fun v hv => testBit_of_lt_two_pow (hwords v hv) hi
  -- no word has the bit, so neither have all of them nor has one of them
  have hall : (words.foldl (· &&& ·) n).testBit i = false := by
    obtain ⟨v, hv⟩ := List.exists_mem_of_ne_nil words hne
    rw [Bool.eq_false_iff]
    intro h
    exact absurd (testBit_of_foldl_and hv h) (by simp [hclear v hv])
  have hany : (words.foldl (· ||| ·) 0).testBit i = false := by
    rw [testBit_foldl_or, Nat.zero_testBit, Bool.false_or, List.any_eq_false]
    intro v hv
    simp [hclear v hv]
  rw [Nat.testBit_xor, hall, hany, Bool.xor_false]

/-- Where the words do not differ, a word has the bits that all have. -/
theorem testBit_foldl_and_eq (hw : w ∈ words)
    (h : (words.foldl (· &&& ·) n ^^^ words.foldl (· ||| ·) 0).testBit i = false) :
    (words.foldl (· &&& ·) n).testBit i = w.testBit i := by
  have hagree : (words.foldl (· &&& ·) n).testBit i
      = (words.foldl (· ||| ·) 0).testBit i := by
    rw [Nat.testBit_xor] at h
    simpa using h
  cases hb : w.testBit i
  · rw [Bool.eq_false_iff]
    intro hall
    exact absurd (testBit_of_foldl_and hw hall) (by simp [hb])
  · rw [hagree, testBit_foldl_or_of_mem hw hb]

/-- Every word is made of the shared bits and of its own low bits. -/
theorem commonBits_or_mod (hwords : ∀ w ∈ words, w < 2 ^ width) (hw : w ∈ words) :
    (commonBits width words).2 ||| w % 2 ^ (width - (commonBits width words).1) = w := by
  have hne : words ≠ [] := List.ne_nil_of_mem hw
  have hdiffer := differing_lt (xor_foldl_lt (n := Nat.pow 2 width - 1) hwords hne)
  have hsame := fun i => testBit_foldl_and_eq (n := Nat.pow 2 width - 1) (i := i) hw
  rw [commonBits, if_neg hne]
  simp only
  generalize words.foldl (· &&& ·) (Nat.pow 2 width - 1) = all at hdiffer hsame ⊢
  generalize words.foldl (· ||| ·) 0 = any at hdiffer hsame ⊢
  generalize width - (if all ^^^ any = 0 then width else width - ((all ^^^ any).log2 + 1)) = own
    at hdiffer ⊢
  refine Nat.eq_of_testBit_eq ?_
  intro i
  rw [Nat.testBit_or, Nat.testBit_mod_two_pow, Nat.testBit_shiftLeft]
  rcases Nat.lt_or_ge i own with hi | hi
  · -- an own bit of the word
    have hshift : decide (own ≤ i) = false := decide_eq_false (Nat.not_le_of_lt hi)
    rw [hshift, Bool.false_and, Bool.false_or, decide_eq_true hi, Bool.true_and]
  · -- a shared bit
    rw [decide_eq_true hi, Bool.true_and, Nat.testBit_shiftRight, Nat.add_sub_cancel' hi,
      decide_eq_false (Nat.not_lt_of_le hi), Bool.false_and, Bool.or_false,
      hsame i (testBit_of_lt_two_pow hdiffer hi)]

end

end PointPatch
