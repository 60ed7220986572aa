/-
PointPatch/Proofs/Sampling/Agreement.lean

Advice that rounding has no part in.

`recommend` rounds every size and every ratio.  But a size is made of counts by
sums and products, which come out exactly as long as there are fewer than
`2 ^ 45` points (`HasExactSizes.value_rawSize` and its kin); and a ratio of two
such sizes that is above the one asked for is above it by more than a rounding
takes away (`add_le_of_lt_div`).  So both tests come out as they do for
rational numbers, and `recommend` is `recommendExactly`
(`HasExactSizes.recommend_eq`).

The counts that a sampling has are of this kind, however many patches it has
taken in (`IsTotalOf.advice_eq_exactly`).  So what is true of the compression
by `recommendExactly` is true of the one that there is: a patch that is
compressed on its own has no column that is stored as runs or without shared
bits and is as long as it was (`Patch.WellFormed.lt_of_compress`).
-/
import PointPatch.Proofs.Double.Arithmetic
import PointPatch.Proofs.Sampling.Advice

namespace PointPatch

namespace Sampling

variable {s : Sampling} {d : Dimension} {t : Tally}

/-! ### Sizes -/

/-- The counts of a dimension are in proportion to the points and the patches, and these are few
enough for its sizes to be exact. -/
structure HasExactSizes (s : Sampling) (t : Tally) : Prop where
  runs_le : t.runs ≤ s.points
  runs_pos : 0 < s.points → 0 < t.runs
  patches_pos : 0 < s.patches
  points_lt : s.points < 2 ^ 45
  patches_lt : s.patches < 2 ^ 44

theorem exactRawSize_eq (s : Sampling) (d : Dimension) :
    exactRawSize s d = (s.points * d.size : ℕ) := by
  rw [exactRawSize, Nat.cast_mul]

theorem exactRunsSize_eq (d : Dimension) (t : Tally) :
    exactRunsSize d t = (t.runs * (d.size + 1) : ℕ) := by
  rw [exactRunsSize]
  push_cast
  rfl

theorem HasExactSizes.rawTotal_le (h : HasExactSizes s t) (d : Dimension) :
    s.points * d.size ≤ 2 ^ 48 := by
  have hraw : s.points * d.size ≤ s.points * 8 := Nat.mul_le_mul_left _ d.type.size_le
  have hlt := h.points_lt
  omega

theorem HasExactSizes.runsTotal_le (h : HasExactSizes s t) (d : Dimension) :
    t.runs * (d.size + 1) ≤ 2 ^ 49 := by
  have hruns : t.runs * (d.size + 1) ≤ s.points * 9 :=
    Nat.mul_le_mul h.runs_le (Nat.succ_le_succ d.type.size_le)
  have hlt := h.points_lt
  omega

theorem HasExactSizes.value_rawSize (h : HasExactSizes s t) (d : Dimension) :
    (s.rawSize d).IsMagnitude ∧ (s.rawSize d).value = exactRawSize s d := by
  rw [exactRawSize_eq]
  exact Double.value_ofNat ((h.rawTotal_le d).trans_lt (by decide))

theorem HasExactSizes.value_runsSize (h : HasExactSizes s t) (d : Dimension) :
    (runsSize d t).IsMagnitude ∧ (runsSize d t).value = exactRunsSize d t := by
  rw [exactRunsSize_eq]
  exact Double.value_ofNat ((h.runsTotal_le d).trans_lt (by decide))

/-- What is added up for the shared bits, in bits. -/
def sharedBitsTotal (s : Sampling) (d : Dimension) (t : Tally) : Nat :=
  16 * (s.patches * d.size) + s.points * s.ownBits d t

theorem exactSharedBitsSize_eq (s : Sampling) (d : Dimension) (t : Tally) :
    exactSharedBitsSize s d t = (s.sharedBitsTotal d t : ℚ) / 2 ^ 3 := by
  rw [exactSharedBitsSize, sharedBitsTotal]
  push_cast
  ring

theorem ownBits_le (s : Sampling) (d : Dimension) (t : Tally) : s.ownBits d t ≤ 64 :=
  (Nat.sub_le _ _).trans (Nat.mul_le_mul_left 8 d.type.size_le)

theorem HasExactSizes.sharedBitsTotal_le (h : HasExactSizes s t) (d : Dimension) :
    s.sharedBitsTotal d t ≤ 2 ^ 52 := by
  have hpatches : s.patches * d.size ≤ s.patches * 8 := Nat.mul_le_mul_left _ d.type.size_le
  have hpoints : s.points * s.ownBits d t ≤ s.points * 64 :=
    Nat.mul_le_mul_left _ (ownBits_le s d t)
  have hlt := h.points_lt
  have hlt' := h.patches_lt
  rw [sharedBitsTotal]
  omega

/-- The part of the size that is in proportion to the points is exact. -/
theorem HasExactSizes.value_ownSize (h : HasExactSizes s t) (d : Dimension) :
    (Double.ofNat s.points * Double.ofNat (s.ownBits d t) / Double.ofNat 8).IsMagnitude
      ∧ (Double.ofNat s.points * Double.ofNat (s.ownBits d t) / Double.ofNat 8).value
        = (s.points * s.ownBits d t : ℕ) / 2 ^ 3 := by
  have hpoints := h.points_lt
  have hown := ownBits_le s d t
  have hlt : s.points * s.ownBits d t < 2 ^ 53 := by
    have hle := h.sharedBitsTotal_le d
    rw [sharedBitsTotal] at hle
    omega
  obtain ⟨hp, hpvalue⟩ := Double.value_ofNat (n := s.points) (by omega)
  obtain ⟨ho, hovalue⟩ := Double.value_ofNat (n := s.ownBits d t) (by omega)
  obtain ⟨he, hevalue⟩ := Double.value_ofNat (n := 8) (by decide)
  have hproduct : Double.Rounds ((s.points * s.ownBits d t : ℕ) / 2 ^ 0)
      (Double.ofNat s.points * Double.ofNat (s.ownBits d t)) := by
    have hround := Double.rounds_mul hp ho
    rwa [hpvalue, hovalue, ← Nat.cast_mul, ← div_one ((_ : ℕ) : ℚ), ← pow_zero (2 : ℚ)] at hround
  obtain ⟨hm, hmvalue⟩ := hproduct.value_eq hlt (Nat.zero_le _)
  have hquotient := Double.rounds_div hm he (by rw [hevalue]; norm_num)
  rw [hmvalue, hevalue, pow_zero, div_one, show ((8 : ℕ) : ℚ) = 2 ^ 3 by norm_num] at hquotient
  exact hquotient.value_eq hlt (by decide)

theorem HasExactSizes.value_sharedBitsSize (h : HasExactSizes s t) (d : Dimension) :
    (s.sharedBitsSize d t).IsMagnitude
      ∧ (s.sharedBitsSize d t).value = exactSharedBitsSize s d t := by
  have htotal := h.sharedBitsTotal_le d
  have hpatches : s.patches * 2 * d.size < 2 ^ 53 := by
    rw [sharedBitsTotal] at htotal
    rw [Nat.mul_right_comm]
    omega
  obtain ⟨hc, hcvalue⟩ := Double.value_ofNat hpatches
  obtain ⟨ho, hovalue⟩ := h.value_ownSize d
  have hsum := Double.rounds_add hc ho
  have hexact : ((s.patches * 2 * d.size : ℕ) : ℚ) + (s.points * s.ownBits d t : ℕ) / 2 ^ 3
      = (s.sharedBitsTotal d t : ℚ) / 2 ^ 3 := by
    rw [sharedBitsTotal]
    push_cast
    ring
  rw [hcvalue, hovalue, hexact] at hsum
  rw [exactSharedBitsSize_eq]
  exact hsum.value_eq (htotal.trans_lt (by decide)) (by decide)

/-! ### Ratios -/

/-- The number after the ratio that is asked for of runs. -/
def runsRatioNext : Double := ⟨0x4010000000000001⟩

/-- The number after the ratio that is asked for of shared bits. -/
def sharedBitsRatioNext : Double := ⟨0x3ff999999999999b⟩

theorem value_runsRatio : runsRatio.IsMagnitude ∧ runsRatio.value = 4 :=
  Double.value_ofNat (by decide)

theorem value_runsRatioNext :
    runsRatioNext.IsMagnitude ∧ runsRatioNext.value = 4 + 1 / 2 ^ 50 := by
  refine ⟨show 0x4010000000000001 < 0x7ff0000000000000 by decide, ?_⟩
  rw [Double.value, show runsRatioNext.significand = 2 ^ 52 + 1 from rfl,
    show runsRatioNext.exponent = -50 from rfl]
  norm_num

theorem sharedBitsRatio_eq : sharedBitsRatio = ⟨0x3ff999999999999a⟩ := by
  decide +kernel

/-- The ratio that is asked for of shared bits is a little more than its digits say. -/
theorem value_sharedBitsRatio : sharedBitsRatio.IsMagnitude ∧ 8 / 5 ≤ sharedBitsRatio.value := by
  rw [sharedBitsRatio_eq]
  refine ⟨show 0x3ff999999999999a < 0x7ff0000000000000 by decide, ?_⟩
  rw [Double.value, show (⟨0x3ff999999999999a⟩ : Double).significand = 0x1999999999999a from rfl,
    show (⟨0x3ff999999999999a⟩ : Double).exponent = -52 from rfl]
  norm_num

theorem value_sharedBitsRatioNext :
    sharedBitsRatioNext.IsMagnitude ∧ sharedBitsRatioNext.value ≤ 8 / 5 + 8 / 5 / 2 ^ 52 := by
  refine ⟨show 0x3ff999999999999b < 0x7ff0000000000000 by decide, ?_⟩
  rw [Double.value, show sharedBitsRatioNext.significand = 0x1999999999999b from rfl,
    show sharedBitsRatioNext.exponent = -52 from rfl]
  norm_num

/-- Two ratios are not closer together than their denominators allow. -/
theorem add_le_of_lt_div {a b m n : ℕ} (hb : 0 < b) (hn : 0 < n) (h : (a / b : ℚ) < m / n) :
    (a / b + 1 / (b * n) : ℚ) ≤ m / n := by
  have hb : (0 : ℚ) < b := Nat.cast_pos.2 hb
  have hn : (0 : ℚ) < n := Nat.cast_pos.2 hn
  rw [div_lt_div_iff₀ hb hn] at h
  have h : a * n + 1 ≤ m * b := by exact_mod_cast h
  have h : (a * n + 1 : ℚ) ≤ m * b := by exact_mod_cast h
  calc (a / b + 1 / (b * n) : ℚ) = (a * n + 1) / (b * n) := by field_simp
    _ ≤ m * b / (b * n) := by gcongr
    _ = m / n := by field_simp

theorem four_add_le_div {raw runs : ℕ} (hruns : 0 < runs) (hle : runs ≤ 2 ^ 50)
    (h : (4 : ℚ) < raw / runs) : (4 + 1 / 2 ^ 50 : ℚ) ≤ raw / runs := by
  have hgap := add_le_of_lt_div (a := 4) (b := 1) Nat.one_pos hruns (by simpa using h)
  have hunit : (1 / 2 ^ 50 : ℚ) ≤ 1 / runs :=
    one_div_le_one_div_of_le (Nat.cast_pos.2 hruns) (by exact_mod_cast hle)
  rw [Nat.cast_one, one_mul, div_one, Nat.cast_ofNat] at hgap
  linarith

theorem eight_fifths_add_le_div {raw bits : ℕ} (hbits : 0 < bits) (hle : bits ≤ 2 ^ 52)
    (h : (8 / 5 : ℚ) < raw / (bits / 2 ^ 3)) :
    (8 / 5 + 8 / 5 / 2 ^ 52 : ℚ) ≤ raw / (bits / 2 ^ 3) := by
  have heights : (raw / (bits / 2 ^ 3) : ℚ) = 8 * (raw / bits) := by
    rw [div_div_eq_mul_div]
    ring
  rw [heights] at h ⊢
  have hgap := add_le_of_lt_div (a := 1) (b := 5) (m := raw) (by decide) hbits (by
    push_cast
    linarith)
  have hunit : (1 / 5 / 2 ^ 52 : ℚ) ≤ 1 / (5 * bits) := by
    rw [div_div]
    refine one_div_le_one_div_of_le (by positivity) ?_
    exact mul_le_mul_of_nonneg_left (by exact_mod_cast hle) (by norm_num)
  rw [Nat.cast_one, Nat.cast_ofNat] at hgap
  linarith

theorem HasExactSizes.lt_runs_iff (h : HasExactSizes s t) (d : Dimension) :
    runsRatio.lt (s.rawSize d / runsSize d t) = true
      ↔ 4 < exactRawSize s d / exactRunsSize d t := by
  rcases Nat.eq_zero_or_pos s.points with hpoints | hpoints
  · -- zero by zero
    have hruns : t.runs = 0 := Nat.le_zero.1 (hpoints ▸ h.runs_le)
    have hratio : runsRatio.lt (Double.ofNat 0 / Double.ofNat 0) = false := by decide +kernel
    rw [rawSize, runsSize, exactRawSize, exactRunsSize, hpoints, hruns, Nat.zero_mul, Nat.zero_mul,
      hratio]
    norm_num
  · obtain ⟨hraw, hrawvalue⟩ := h.value_rawSize d
    obtain ⟨hruns, hrunsvalue⟩ := h.value_runsSize d
    obtain ⟨hratio, hratiovalue⟩ := value_runsRatio
    obtain ⟨hnext, hnextvalue⟩ := value_runsRatioNext
    have hpos : 0 < exactRunsSize d t := by
      have := h.runs_pos hpoints
      rw [exactRunsSize]
      positivity
    have hround := Double.rounds_div hraw hruns (hrunsvalue ▸ hpos)
    rw [hrawvalue, hrunsvalue] at hround
    refine hround.lt_iff hratio hratiovalue.ge hnext (by decide) fun hlt => ?_
    have hn : 0 < t.runs * (d.size + 1) := Nat.mul_pos (h.runs_pos hpoints) (Nat.succ_pos _)
    rw [exactRunsSize_eq, exactRawSize_eq] at hlt ⊢
    rw [hnextvalue]
    exact four_add_le_div hn ((h.runsTotal_le d).trans (by decide)) hlt

theorem HasExactSizes.lt_sharedBits_iff (h : HasExactSizes s t) (d : Dimension) :
    sharedBitsRatio.lt (s.rawSize d / s.sharedBitsSize d t) = true
      ↔ 8 / 5 < exactRawSize s d / exactSharedBitsSize s d t := by
  obtain ⟨hraw, hrawvalue⟩ := h.value_rawSize d
  obtain ⟨hbits, hbitsvalue⟩ := h.value_sharedBitsSize d
  obtain ⟨hratio, hratiovalue⟩ := value_sharedBitsRatio
  obtain ⟨hnext, hnextvalue⟩ := value_sharedBitsRatioNext
  have hpos : 0 < exactSharedBitsSize s d t := by
    have := h.patches_pos
    have hsize : 0 < d.size := d.type.size_pos
    rw [exactSharedBitsSize]
    positivity
  have hround := Double.rounds_div hraw hbits (hbitsvalue ▸ hpos)
  rw [hrawvalue, hbitsvalue] at hround
  refine hround.lt_iff hratio hratiovalue hnext ?_ fun hlt => hnextvalue.trans ?_
  · rw [sharedBitsRatio_eq]
    decide
  · have hn : 0 < s.sharedBitsTotal d t := by
      refine Nat.pos_of_ne_zero fun hzero => hpos.ne' ?_
      rw [exactSharedBitsSize_eq, hzero, Nat.cast_zero, zero_div]
    rw [exactSharedBitsSize_eq, exactRawSize_eq] at hlt ⊢
    exact eight_fifths_add_le_div hn (h.sharedBitsTotal_le d) hlt

/-- The advice is the same as if nothing were rounded. -/
theorem HasExactSizes.recommend_eq (h : HasExactSizes s t) (d : Dimension) :
    s.recommend d t = recommendExactly s d t := by
  simp only [recommend, recommendExactly, h.lt_runs_iff, h.lt_sharedBits_iff]

end Sampling

/-! ### Counts -/

theorem changesAfter_le_length {α : Type} [DecidableEq α] (value : α) (xs : List α) :
    changesAfter value xs ≤ xs.length := by
  induction xs generalizing value with
  | nil => exact le_rfl
  | cons x xs ih =>
    have hrest := ih x
    rw [changesAfter, List.length_cons]
    split_ifs <;> omega

/-- A raw column has no more runs than elements, and a run if it has an element. -/
theorem Column.runCount_bounds {raw : Column} {runs : Nat} (hraw : raw.mode = .raw)
    (hlength : raw.payload.length = raw.count * raw.type.size) (hruns : raw.runCount = .ok runs) :
    runs ≤ raw.count ∧ (0 < raw.count → 0 < runs) := by
  obtain ⟨type, count, mode, bytes⟩ := raw
  obtain rfl : mode = .raw := hraw
  cases hruns
  have hcount : (chunks type.size bytes).length = count := by
    rw [length_chunks, hlength, Nat.mul_div_cancel _ type.size_pos]
  dsimp only
  rw [← hcount]
  rcases chunks type.size bytes with - | ⟨x, xs⟩
  · exact ⟨le_rfl, fun h => h⟩
  · have hle := changesAfter_le_length x xs
    rw [PointPatch.runCount, List.length_cons]
    omega

namespace Sampling

variable {z : ColumnCodec} {s : Sampling} {p : ColumnPatch} {raws : List Column}

theorem adviseBy_congr {advisor advisor' : Advisor} {ds : List Dimension} {ts : List Tally}
    (h : ∀ (i : Nat) d t, ds[i]? = some d → ts[i]? = some t → advisor s d t = advisor' s d t) :
    adviseBy advisor s ds ts = adviseBy advisor' s ds ts := by
  induction ts generalizing ds with
  | nil => cases ds <;> rfl
  | cons t ts ih =>
    cases ds with
    | nil => rfl
    | cons d ds =>
      rw [adviseBy, adviseBy, h 0 d t rfl rfl, ih fun i => h (i + 1)]

/-- What is counted in a patch, in proportion to its points. -/
theorem counts_bounds (h : p.Holds z raws) {i : Nat} {c raw : Column} {n : Nat × Nat}
    (hc : p.columns[i]? = some c) (hraw : c.decode z = .ok raw) (hruns : raw.runCount = .ok n.1) :
    n.1 ≤ p.count ∧ (0 < p.count → 0 < n.1) := by
  obtain ⟨raw', hraw', hdecode⟩ := exists_getElem? h.decode hc
  obtain rfl := Except.ok.inj (hdecode.symm.trans hraw)
  have hmem := List.mem_of_getElem? hraw'
  obtain ⟨d, -, -, hcount, -⟩ := exists_of_mem_right h.fits hmem
  rw [← hcount]
  exact Column.runCount_bounds (h.mode_of_mem hmem) (h.length_of_mem hmem) hruns

/-- A patch that is taken in on its own is advised as if nothing were rounded. -/
theorem updateBy_recommendExactly (h : p.Holds z raws) (hcount : p.count < 2 ^ 45) :
    updateBy recommendExactly z (start p.schema) p = update z (start p.schema) p := by
  rw [← updateBy_recommend]
  obtain ⟨ns, hns⟩ := exists_mapM_counts h
  have htake : takeBy recommendExactly (start p.schema) p.schema.dimensions p.count ns
      = takeBy recommend (start p.schema) p.schema.dimensions p.count ns := by
    rw [takeBy, takeBy]
    congr 1
    refine adviseBy_congr fun i d t hd ht => (HasExactSizes.recommend_eq ?_ d).symm
    -- a dimension has a column, and its counts
    obtain ⟨raw, hraw, -⟩ := exists_getElem? h.fits hd
    obtain ⟨c, hc, hdecode⟩ := exists_getElem? h.decode.flip hraw
    obtain ⟨n, hn, hcounts⟩ := exists_getElem? (mapM_eq_ok_iff.1 hns) hc
    obtain ⟨raw', hraw', hruns, -⟩ := counts_eq_ok_iff.1 hcounts
    obtain ⟨hle, hpos⟩ := counts_bounds h hc hraw' hruns
    have hi : i < (start p.schema).tallies.length := by
      have hlt := (List.getElem?_eq_some_iff.1 ht).1
      rwa [length_addCounts] at hlt
    rw [getElem?_addCounts_start hi hn] at ht
    cases ht
    simp only [start, Nat.zero_add]
    exact ⟨hle, hpos, Nat.one_pos, hcount, show 1 < 2 ^ 44 by decide⟩
  rw [updateBy, updateBy, hns, ok_bind, ok_bind, htake]

/-- Counts that are in proportion patch by patch are so on the whole. -/
theorem sum_bounds {ps : List ColumnPatch} {ns : List (Nat × Nat)}
    (h : ps.Forall₂ (fun p n => n.1 ≤ p.count ∧ (0 < p.count → 0 < n.1)) ns) :
    (ns.map Prod.fst).sum ≤ (ps.map fun p => p.count).sum
      ∧ (0 < (ps.map fun p => p.count).sum → 0 < (ns.map Prod.fst).sum) := by
  induction h with
  | nil => exact ⟨le_rfl, fun h => h⟩
  | cons hpn _ ih =>
    simp only [List.map_cons, List.sum_cons]
    omega

/-- Patches that are taken in one after another are advised as if nothing were rounded. -/
theorem IsTotalOf.advice_eq_exactly {schema : Schema} {ps : List ColumnPatch}
    (h : IsTotalOf z schema ps s) (hps : ∀ p ∈ ps, ∃ raws, p.Holds z raws) (hne : ps ≠ [])
    (hpoints : s.points < 2 ^ 45) (hpatches : s.patches < 2 ^ 44) {i : Nat} {d : Dimension}
    {t : Tally} (hd : schema.dimensions[i]? = some d) (ht : s.tallies[i]? = some t) :
    t.advice = recommendExactly s d t := by
  obtain ⟨ns, hns, hruns, -⟩ := h.sums_eq i t ht
  have hcounts : ps.Forall₂ (fun p n => n.1 ≤ p.count ∧ (0 < p.count → 0 < n.1)) ns := by
    refine ((List.forall₂_and_left _ _).2 ⟨hps, hns⟩).imp ?_
    rintro p n ⟨⟨raws, hholds⟩, c, raw, hc, hraw, hn, -⟩
    exact counts_bounds hholds hc hraw hn
  obtain ⟨hle, hpos⟩ := sum_bounds hcounts
  rw [← h.points_eq, ← hruns] at hle hpos
  have hsome : 0 < s.patches := h.patches_eq ▸ List.length_pos_iff.2 hne
  rw [h.advice_eq i t d ht hd, if_neg hne]
  exact HasExactSizes.recommend_eq ⟨hle, hpos, hsome, hpoints, hpatches⟩ d

end Sampling

/-! ### Compression -/

namespace ColumnPatch

open Sampling

variable {e : Engine} {p : ColumnPatch} {raws : List Column}

theorem Holds.compressBy_recommendExactly (h : p.Holds e.deflate raws) (hcount : p.count < 2 ^ 45) :
    compressBy recommendExactly e (start p.schema) p = compress e (start p.schema) p := by
  have hupdate := updateBy_recommendExactly h.raw hcount
  rw [← compressBy_recommend, compressBy, compressBy, h.decode_eq, ok_bind, ok_bind, sampleBy,
    sampleBy, updateBy_recommend, ← hupdate]

end ColumnPatch

namespace Patch

open Sampling

variable {e : Engine} {s' : Sampling} {p : Patch} {q : ColumnPatch}

/-- A patch that is compressed on its own is stored as if nothing were rounded. -/
theorem WellFormed.compressBy_recommendExactly (hb : p.schema.Built) (hp : p.WellFormed e)
    (hcount : p.count < 2 ^ 45) :
    p.compressBy recommendExactly e (start p.schema) = p.compress e (start p.schema) := by
  rw [← compressBy_recommend]
  cases htarget : p.schema.target with
  | rows => rw [compressBy, compressBy, htarget]
  | blob => rw [compressBy, compressBy, htarget]
  | columns =>
    obtain ⟨c, raws, -, hcolumns, hsame, hholds, -⟩ := hp.exists_toColumns hb
    have hschema : c.schema = p.schema := congrArg PatchHeader.schema hsame
    have hpoints : c.count = p.count := congrArg PatchHeader.count hsame
    have hc := hholds.compressBy_recommendExactly (hpoints.trans_lt hcount)
    rw [compressBy_eq_of_toColumns htarget hcolumns, compressBy_eq_of_toColumns htarget hcolumns,
      ← hschema, hc, ColumnPatch.compressBy_recommend]

/-- A patch that is compressed on its own has no column that is stored as runs or without shared
bits and is as long as it was. -/
theorem WellFormed.lt_of_compress (hb : p.schema.Built) (hp : p.WellFormed e)
    (hcount : p.count < 2 ^ 45) (h : p.compress e (start p.schema) = .ok (.columns q, s'))
    {c : Column} (hc : c ∈ q.columns) (hshort : c.mode = .rle ∨ c.mode = .sigbits) :
    c.payload.length < c.count * c.type.size := by
  rw [← hp.compressBy_recommendExactly hb hcount] at h
  exact hp.lt_of_compressBy isCautious_recommendExactly hb h hc hshort

end Patch

end PointPatch
