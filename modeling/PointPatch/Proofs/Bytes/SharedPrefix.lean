/-
PointPatch/Proofs/Bytes/SharedPrefix.lean

The longest prefix that all words of a list share.

`AgreeOn width k words` says that all words have the same `k` leading bits,
and `IsSharedPrefix width words count common` that `count` is the greatest
such number and `common` is what these bits are, in place, with the low bits
cleared.  There is one such pair only (`IsSharedPrefix.unique`), and
`commonBits` finds it (`isSharedPrefix_commonBits`).  It follows that neither
the order of the words nor how often they occur is of any account
(`commonBits_congr`).

Words agree above a place exactly if the bits that some of them have and some
have not all lie below it (`differingBits_lt_iff`), so the highest differing
bit bounds the prefix from below, and nothing but it does.

`scanBits` finds the same on words of a fixed width, by a count of leading
zeros and a mask (`commonBits_map_toNat`); the mask has its two ends as cases of
their own, since no shift goes as far as the width.
-/
import PointPatch.Proofs.Bytes.Bits
import Mathlib.Order.Bounds.Basic

namespace PointPatch

variable {width k : Nat} {words : List Nat}

/-- Whether all words have the same `k` leading bits of `width`. -/
def AgreeOn (width k : Nat) (words : List Nat) : Prop :=
  ∀ v ∈ words, ∀ w ∈ words, v >>> (width - k) = w >>> (width - k)

/-- The number of leading bits on which all words agree, and these bits with all others cleared.
No words have no bits to differ in. -/
structure IsSharedPrefix (width : Nat) (words : List Nat) (count common : Nat) : Prop where
  count_le : count ≤ width
  agreeOn_iff : ∀ k ≤ width, AgreeOn width k words ↔ k ≤ count
  common_eq : ∀ w ∈ words, common = w >>> (width - count) <<< (width - count)
  common_of_nil : words = [] → common = 0

/-! ### The bits in which words differ -/

/-- The bits that some words have and others have not. -/
def differingBits (width : Nat) (words : List Nat) : Nat :=
  words.foldl (· &&& ·) (Nat.pow 2 width - 1) ^^^ words.foldl (· ||| ·) 0

/-- Words agree above a place if they differ below it only. -/
theorem differingBits_lt_iff (hwords : ∀ w ∈ words, w < 2 ^ width) (hne : words ≠ []) :
    differingBits width words < 2 ^ k ↔ ∀ v ∈ words, ∀ w ∈ words, v >>> k = w >>> k := by
  constructor
  · intro hlt v hv w hw
    apply Nat.eq_of_testBit_eq
    intro i
    have hclear := testBit_of_lt_two_pow hlt (Nat.le_add_right k i)
    rw [Nat.testBit_shiftRight, Nat.testBit_shiftRight, ← testBit_foldl_and_eq hv hclear,
      ← testBit_foldl_and_eq hw hclear]
  · intro hagree
    apply Nat.lt_pow_two_of_testBit
    intro i hi
    rcases Nat.lt_or_ge i width with hlt | hge
    · -- within the width, either all words have the bit or none
      obtain ⟨v, hv⟩ := List.exists_mem_of_ne_nil words hne
      have hsame : ∀ w ∈ words, w.testBit i = v.testBit i := by
        intro w hw
        have hbit := congrArg (fun n => n.testBit (i - k)) (hagree w hw v hv)
        simp only [Nat.testBit_shiftRight, Nat.add_sub_cancel' hi] at hbit
        exact hbit
      have hall : (words.all fun w => w.testBit i) = v.testBit i := by
        apply Bool.eq_iff_iff.2
        rw [List.all_eq_true]
        exact ⟨fun h => h v hv, fun h w hw => (hsame w hw).trans h⟩
      have hany : (words.any fun w => w.testBit i) = v.testBit i := by
        apply Bool.eq_iff_iff.2
        rw [List.any_eq_true]
        exact ⟨fun ⟨w, hw, h⟩ => (hsame w hw).symm.trans h, fun h => ⟨v, hv, h⟩⟩
      rw [differingBits, Nat.testBit_xor, testBit_foldl_and, testBit_foldl_or, Nat.pow_eq,
        Nat.testBit_two_pow_sub_one, decide_eq_true hlt, Nat.zero_testBit, hall, hany,
        Bool.true_and, Bool.false_or, Bool.xor_self]
    · -- beyond it, no word has any
      exact testBit_of_lt_two_pow (xor_foldl_lt hwords hne) hge

/-! ### What is found -/

theorem commonBits_nil (width : Nat) : commonBits width [] = (width, 0) := rfl

/-- The number of shared bits that is found, by the highest differing bit. -/
theorem commonBits_fst_eq (hne : words ≠ []) :
    (commonBits width words).1 = if differingBits width words = 0 then width
      else width - ((differingBits width words).log2 + 1) := by
  rw [commonBits, if_neg hne]
  rfl

theorem le_commonBits_fst_iff (hwords : ∀ w ∈ words, w < 2 ^ width) (hne : words ≠ [])
    (hk : k ≤ width) :
    k ≤ (commonBits width words).1 ↔ differingBits width words < 2 ^ (width - k) := by
  have hlt : differingBits width words < 2 ^ width := xor_foldl_lt hwords hne
  rw [commonBits_fst_eq hne]
  split
  · rename_i h0
    rw [h0]
    exact iff_of_true hk (Nat.two_pow_pos _)
  · rename_i h0
    have hlog := (Nat.log2_lt h0).2 hlt
    rw [← Nat.log2_lt h0]
    omega

/-- The shared bits that are found are those of every word. -/
theorem commonBits_snd_eq (hwords : ∀ w ∈ words, w < 2 ^ width) {w : Nat} (hw : w ∈ words) :
    (commonBits width words).2 = w >>> (width - (commonBits width words).1)
      <<< (width - (commonBits width words).1) := by
  have hne : words ≠ [] := List.ne_nil_of_mem hw
  have hbelow := (le_commonBits_fst_iff hwords hne (commonBits_fst_le width words)).1 (Nat.le_refl _)
  have hsnd : (commonBits width words).2
      = words.foldl (· &&& ·) (Nat.pow 2 width - 1) >>> (width - (commonBits width words).1)
        <<< (width - (commonBits width words).1) := by
    rw [commonBits, if_neg hne]
  rw [hsnd]
  congr 1
  apply Nat.eq_of_testBit_eq
  intro i
  rw [Nat.testBit_shiftRight, Nat.testBit_shiftRight,
    testBit_foldl_and_eq hw (testBit_of_lt_two_pow hbelow (Nat.le_add_right _ i))]

/-- The leading bits that are found are those on which all words agree, and no fewer. -/
theorem isSharedPrefix_commonBits (hwords : ∀ w ∈ words, w < 2 ^ width) :
    IsSharedPrefix width words (commonBits width words).1 (commonBits width words).2 where
  count_le := commonBits_fst_le width words
  agreeOn_iff := by
    intro k hk
    rcases eq_or_ne words [] with rfl | hne
    · rw [commonBits_nil]
      exact iff_of_true (fun _ hv => absurd hv List.not_mem_nil) hk
    · rw [le_commonBits_fst_iff hwords hne hk, differingBits_lt_iff hwords hne]
      rfl
  common_eq := fun _ hw => commonBits_snd_eq hwords hw
  common_of_nil := by
    rintro rfl
    rw [commonBits_nil]

theorem IsSharedPrefix.unique {count count' common common' : Nat}
    (h : IsSharedPrefix width words count common) (h' : IsSharedPrefix width words count' common') :
    count = count' ∧ common = common' := by
  have hle := (h'.agreeOn_iff count h.count_le).1 ((h.agreeOn_iff count h.count_le).2 (Nat.le_refl _))
  have hge := (h.agreeOn_iff count' h'.count_le).1
    ((h'.agreeOn_iff count' h'.count_le).2 (Nat.le_refl _))
  obtain rfl := Nat.le_antisymm hle hge
  refine ⟨rfl, ?_⟩
  cases words with
  | nil => rw [h.common_of_nil rfl, h'.common_of_nil rfl]
  | cons w ws => rw [h.common_eq w List.mem_cons_self, h'.common_eq w List.mem_cons_self]

/-- Behind the shared bits all bits are cleared. -/
theorem IsSharedPrefix.common_mod {count common : Nat}
    (h : IsSharedPrefix width words count common) : common % 2 ^ (width - count) = 0 := by
  cases words with
  | nil => rw [h.common_of_nil rfl, Nat.zero_mod]
  | cons w ws => rw [h.common_eq w List.mem_cons_self, Nat.shiftLeft_eq, Nat.mul_mod_left]

/-- What is found depends on which words there are alone. -/
theorem commonBits_congr {words' : List Nat} (hwords : ∀ w ∈ words, w < 2 ^ width)
    (hmem : ∀ w, w ∈ words' ↔ w ∈ words) : commonBits width words' = commonBits width words := by
  have hfound := isSharedPrefix_commonBits hwords
  have hfound' := isSharedPrefix_commonBits fun w hw => hwords w ((hmem w).1 hw)
  have hagree : ∀ k, AgreeOn width k words' ↔ AgreeOn width k words := by
    intro k
    simp only [AgreeOn, hmem]
  have hshared : IsSharedPrefix width words (commonBits width words').1
      (commonBits width words').2 :=
    { count_le := hfound'.count_le
      agreeOn_iff := fun k hk => (hagree k).symm.trans (hfound'.agreeOn_iff k hk)
      common_eq := fun w hw => hfound'.common_eq w ((hmem w).2 hw)
      common_of_nil := fun hnil => hfound'.common_of_nil <| List.eq_nil_iff_forall_not_mem.2
        fun w hw => List.ne_nil_of_mem ((hmem w).1 hw) hnil }
  obtain ⟨hcount, hcommon⟩ := hshared.unique hfound
  exact Prod.ext hcount hcommon

/-! ### Words of a fixed width -/

section

variable {count : Nat} {ws : List (BitVec width)}

/-- The mask of the leading bits of a word. -/
def highMask (width count : Nat) : BitVec width :=
  if count = 0 then 0
  else if width ≤ count then BitVec.allOnes width
  else ~~~(BitVec.allOnes width >>> count)

/-- What words of a fixed width share: the bits that all words have and those that any of them has
differ for the first time behind it. -/
def scanBits (ws : List (BitVec width)) : Nat × BitVec width :=
  if ws = [] then (width, 0)
  else
    let all := ws.foldl (· &&& ·) (BitVec.allOnes width)
    let any := ws.foldl (· ||| ·) 0
    let count := (all ^^^ any).clz.toNat
    (count, all &&& highMask width count)

/-- The mask has the leading bits of a word, in the extreme cases too. -/
theorem getLsbD_highMask (hcount : count ≤ width) (i : Nat) :
    (highMask width count).getLsbD i = decide (i < width ∧ width - count ≤ i) := by
  rw [highMask]
  split
  · -- no bit is leading
    rename_i h0
    rw [BitVec.ofNat_eq_ofNat, BitVec.getLsbD_zero, eq_comm, decide_eq_false_iff_not]
    omega
  split
  · -- all bits are
    rw [BitVec.getLsbD_allOnes, decide_eq_decide]
    omega
  · rw [BitVec.getLsbD_not, BitVec.getLsbD_ushiftRight, BitVec.getLsbD_allOnes, ← decide_not,
      ← Bool.decide_and, decide_eq_decide]
    omega

/-- Leading zeros are counted by the highest bit. -/
theorem toNat_clz (x : BitVec width) :
    x.clz.toNat = if x.toNat = 0 then width else width - (x.toNat.log2 + 1) := by
  have hlt := BitVec.toNat_lt_two_pow_sub_clz (x := x)
  split
  · rename_i h0
    have hx : x = BitVec.ofNat width 0 := BitVec.eq_of_toNat_eq h0
    rw [BitVec.clz_eq_iff_eq_zero.2 hx, BitVec.natCast_eq_ofNat, BitVec.toNat_ofNat,
      Nat.mod_eq_of_lt Nat.lt_two_pow_self]
  · rename_i h0
    have hx : x ≠ BitVec.ofNat width 0 := fun h => h0 (congrArg BitVec.toNat h)
    have hpos : 0 < width := by
      rcases Nat.eq_zero_or_pos width with rfl | hpos
      · exact absurd (BitVec.of_length_zero) hx
      · exact hpos
    have hge := BitVec.two_pow_sub_clz_le_toNat_of_ne_zero hpos hx
    have hlog : x.toNat.log2 + 1 ≤ width - x.clz.toNat := (Nat.log2_lt h0).2 hlt
    have hlog' : width - 1 - x.clz.toNat ≤ x.toNat.log2 := (Nat.le_log2 h0).2 hge
    omega

theorem toNat_clz_le (x : BitVec width) : x.clz.toNat ≤ width := by
  rw [toNat_clz]
  split
  · exact Nat.le_refl _
  · exact Nat.sub_le _ _

theorem foldl_and_map_toNat (ws : List (BitVec width)) :
    (ws.map BitVec.toNat).foldl (· &&& ·) (Nat.pow 2 width - 1)
      = (ws.foldl (· &&& ·) (BitVec.allOnes width)).toNat := by
  rw [List.foldl_map, Nat.pow_eq, ← BitVec.toNat_allOnes]
  exact List.foldl_hom BitVec.toNat fun _ _ => (BitVec.toNat_and _ _).symm

theorem foldl_or_map_toNat (ws : List (BitVec width)) :
    (ws.map BitVec.toNat).foldl (· ||| ·) 0 = (ws.foldl (· ||| ·) (0 : BitVec width)).toNat := by
  have hzero : (0 : BitVec width).toNat = 0 := BitVec.toNat_zero
  rw [List.foldl_map, ← hzero]
  exact List.foldl_hom BitVec.toNat fun _ _ => (BitVec.toNat_or _ _).symm

theorem toNat_and_highMask (x : BitVec width) (hcount : count ≤ width) :
    (x &&& highMask width count).toNat = x.toNat >>> (width - count) <<< (width - count) := by
  apply Nat.eq_of_testBit_eq
  intro i
  rw [BitVec.toNat_and, Nat.testBit_and, BitVec.testBit_toNat, BitVec.testBit_toNat,
    getLsbD_highMask hcount, Nat.testBit_shiftLeft, Nat.testBit_shiftRight]
  by_cases hi : width - count ≤ i
  · rw [Nat.add_sub_cancel' hi, BitVec.testBit_toNat, decide_eq_true hi, Bool.true_and]
    by_cases hlt : i < width
    · rw [decide_eq_true ⟨hlt, hi⟩, Bool.and_true]
    · rw [BitVec.getLsbD_of_ge x i (Nat.not_lt.1 hlt), Bool.false_and]
  · rw [decide_eq_false hi, decide_eq_false fun h => hi h.2, Bool.and_false, Bool.false_and]

/-- Both scans find the same. -/
theorem commonBits_map_toNat (ws : List (BitVec width)) :
    commonBits width (ws.map BitVec.toNat) = ((scanBits ws).1, (scanBits ws).2.toNat) := by
  rw [commonBits, scanBits]
  by_cases hnil : ws = []
  · rw [if_pos hnil, if_pos (List.map_eq_nil_iff.2 hnil)]
    rfl
  rw [if_neg hnil, if_neg (mt List.map_eq_nil_iff.1 hnil)]
  dsimp only
  rw [foldl_and_map_toNat, foldl_or_map_toNat, ← BitVec.toNat_xor, ← toNat_clz,
    toNat_and_highMask _ (toNat_clz_le _)]

/-- What is left of two words behind a shift says which of their leading bits are the same. -/
theorem shiftRight_toNat_eq_iff (hk : k ≤ width) (v w : BitVec width) :
    v.toNat >>> (width - k) = w.toNat >>> (width - k) ↔ ∀ i < k, v.getMsbD i = w.getMsbD i := by
  constructor
  · intro h i hi
    have hbit := congrArg (fun n => n.testBit (k - 1 - i)) h
    simp only [Nat.testBit_shiftRight, BitVec.testBit_toNat] at hbit
    rw [show width - k + (k - 1 - i) = width - 1 - i by omega] at hbit
    rw [BitVec.getMsbD_eq_getLsbD, BitVec.getMsbD_eq_getLsbD, hbit]
  · intro h
    apply Nat.eq_of_testBit_eq
    intro j
    rw [Nat.testBit_shiftRight, Nat.testBit_shiftRight, BitVec.testBit_toNat, BitVec.testBit_toNat]
    by_cases hj : j < k
    · have hbit := h (k - 1 - j) (by omega)
      have hlt : k - 1 - j < width := by omega
      rw [BitVec.getMsbD_eq_getLsbD, BitVec.getMsbD_eq_getLsbD, decide_eq_true hlt,
        Bool.true_and, Bool.true_and] at hbit
      rwa [show width - 1 - (k - 1 - j) = width - k + j by omega] at hbit
    · -- beyond the width no word has bits
      rw [BitVec.getLsbD_of_ge _ _ (by omega), BitVec.getLsbD_of_ge _ _ (by omega)]

theorem agreeOn_map_toNat_iff (hk : k ≤ width) :
    AgreeOn width k (ws.map BitVec.toNat) ↔
      ∀ v ∈ ws, ∀ w ∈ ws, ∀ i < k, v.getMsbD i = w.getMsbD i := by
  simp only [AgreeOn, List.forall_mem_map, shiftRight_toNat_eq_iff hk]

/-- The leading bits that are found are the longest prefix that all words share: no longer one is
shared, it is the whole width exactly if the words are all the same, and each word is that prefix
with its own low bits behind it.  Order and repetition of the words are of no account, and the scan
of words of a fixed width finds the same. -/
theorem commonBits_longest (ws : List (BitVec width)) :
    let count := (commonBits width (ws.map BitVec.toNat)).1
    let common := (commonBits width (ws.map BitVec.toNat)).2
    IsGreatest {k | k ≤ width ∧ ∀ v ∈ ws, ∀ w ∈ ws, ∀ i < k, v.getMsbD i = w.getMsbD i} count
    ∧ (count = width ↔ ∀ v ∈ ws, ∀ w ∈ ws, v = w)
    ∧ common % 2 ^ (width - count) = 0 ∧ (ws = [] → common = 0)
    ∧ (∀ w ∈ ws, w.toNat = common ||| w.toNat % 2 ^ (width - count))
    ∧ (∀ vs : List (BitVec width), (∀ w, w ∈ vs ↔ w ∈ ws) →
        commonBits width (vs.map BitVec.toNat) = commonBits width (ws.map BitVec.toNat))
    ∧ scanBits ws = (count, BitVec.ofNat width common) := by
  intro count common
  have hwords : ∀ w ∈ ws.map BitVec.toNat, w < 2 ^ width := List.forall_mem_map.2 fun w _ => w.isLt
  have hfound : IsSharedPrefix width (ws.map BitVec.toNat) count common :=
    isSharedPrefix_commonBits hwords
  have hgreatest : ∀ k ≤ width,
      (∀ v ∈ ws, ∀ w ∈ ws, ∀ i < k, v.getMsbD i = w.getMsbD i) ↔ k ≤ count := fun k hk =>
    (agreeOn_map_toNat_iff hk).symm.trans (hfound.agreeOn_iff k hk)
  have hscan := commonBits_map_toNat ws
  refine ⟨⟨⟨hfound.count_le, (hgreatest _ hfound.count_le).2 (Nat.le_refl _)⟩, ?_⟩, ⟨?_, ?_⟩,
    hfound.common_mod, ?_, ?_, ?_, Prod.ext (congrArg Prod.fst hscan).symm ?_⟩
  · rintro k ⟨hk, hagree⟩
    exact (hgreatest k hk).1 hagree
  · -- words with all bits in common are the same
    intro hcount v hv w hw
    refine BitVec.eq_of_getMsbD_eq fun i hi => ?_
    exact (hgreatest width (Nat.le_refl _)).2 (Nat.le_of_eq hcount.symm) v hv w hw i hi
  · intro hsame
    refine Nat.le_antisymm hfound.count_le ((hgreatest width (Nat.le_refl _)).1 ?_)
    intro v hv w hw i _
    rw [hsame v hv w hw]
  · rintro rfl
    exact hfound.common_of_nil rfl
  · intro w hw
    exact (commonBits_or_mod hwords (List.mem_map_of_mem hw)).symm
  · intro vs hmem
    refine commonBits_congr hwords fun w => ?_
    simp only [List.mem_map, hmem]
  · have hcommon : common = (scanBits ws).2.toNat := congrArg Prod.snd hscan
    rw [hcommon, BitVec.ofNat_toNat, BitVec.setWidth_eq]

/-- Three words that share four bits, no fifth one, and the same words in another order with one of
them twice. -/
theorem commonBits_longest_three :
    let ws : List (BitVec 8) := [0xa1, 0xa6, 0xaf]
    let vs : List (BitVec 8) := [0xaf, 0xa1, 0xa6, 0xa1]
    IsGreatest {k | k ≤ 8 ∧ ∀ v ∈ ws, ∀ w ∈ ws, ∀ i < k, v.getMsbD i = w.getMsbD i} 4
    ∧ commonBits 8 (vs.map BitVec.toNat) = (4, 0xa0)
    ∧ (∀ w ∈ ws, w.toNat = 0xa0 ||| w.toNat % 2 ^ 4) ∧ scanBits ws = (4, 0xa0) := by
  intro ws vs
  obtain ⟨hgreatest, -, -, -, hword, hsame, hscan⟩ := commonBits_longest ws
  have hfound : commonBits 8 (ws.map BitVec.toNat) = (4, 0xa0) := by decide
  have hmem : ∀ w, w ∈ vs ↔ w ∈ ws := by
    intro w
    simp only [vs, ws, List.mem_cons]
    tauto
  rw [hfound] at hgreatest hword hsame hscan
  exact ⟨hgreatest, hsame vs hmem, hword, hscan⟩

end

end PointPatch
