/-
PointPatch/Proofs/Sampling/Advice.lean

Advice that pays.

What a compression does is the same whoever gives the advice: an `Advisor`
takes the place of `recommend` in all that leads from there to the stored
columns (`compressBy`), and with `recommend` itself this is the compression
that there is (`compressBy_recommend`).  An advisor is cautious if it only
speaks for runs where these save three quarters, and for shared bits where
the raw size is more than 1.6 times theirs.  The sizes are rational numbers
here; `recommendExactly` compares these, where `recommend` rounds every step.
That both say the same of counts that are not too large is a matter of its own
(`HasExactSizes.recommend_eq`).

A sampling that has seen a single patch has counted the runs and the shared
bits of its columns and nothing else (`exists_tally_of_updateBy`).  So what a
cautious advisor says about a column is true of this very column, and the
sizes that it goes by are close enough to the real ones: no column that is
stored as runs or without shared bits is as long as it was
(`ColumnPatch.WellFormed.lt_of_compressBy`).
-/
import PointPatch.Proofs.Column.Estimates
import PointPatch.Proofs.Sampling.Totals
import PointPatch.Proofs.Schema.Names
import Mathlib.Algebra.Order.Field.Rat
import Mathlib.Tactic.Linarith
import Mathlib.Tactic.NormNum
import Mathlib.Tactic.Positivity

namespace PointPatch

namespace Sampling

/-! ### Advisors -/

/-- A way to find a mode for a dimension, from what has been seen of it. -/
abbrev Advisor := Sampling → Dimension → Tally → Mode

/-- Advises a mode for each dimension, in order, by a given advisor. -/
def adviseBy (advisor : Advisor) (s : Sampling) : List Dimension → List Tally → List Tally
  | d :: ds, t :: ts => { t with advice := advisor s d t } :: adviseBy advisor s ds ts
  | _, ts => ts

/-- Takes in the counts of a patch, and advises by a given advisor. -/
def takeBy (advisor : Advisor) (s : Sampling) (dimensions : List Dimension) (points : Nat)
    (counts : List (Nat × Nat)) : Sampling :=
  let s : Sampling :=
    { points := s.points + points, patches := s.patches + 1,
      tallies := addCounts s.tallies counts }
  { s with tallies := adviseBy advisor s dimensions s.tallies }

/-- Takes in a patch, and advises by a given advisor. -/
def updateBy (advisor : Advisor) (z : ColumnCodec) (s : Sampling) (p : ColumnPatch) :
    Except Fault Sampling := do
  if p.schema.slotCount ≠ s.tallies.length then
    throw (.samplingWidth s.tallies.length p.schema.pcid p.schema.slotCount)
  let counts ← p.columns.mapM (counts z)
  return takeBy advisor s p.schema.dimensions p.count counts

theorem adviseBy_recommend (s : Sampling) (ds : List Dimension) (ts : List Tally) :
    adviseBy recommend s ds ts = s.advise ds ts := by
  induction ts generalizing ds with
  | nil => cases ds <;> rfl
  | cons t ts ih =>
    cases ds with
    | nil => rfl
    | cons d ds => exact congrArg (List.cons _) (ih ds)

theorem updateBy_recommend : updateBy recommend = update := by
  funext z s p
  simp only [updateBy, update, takeBy, take, adviseBy_recommend]

/-! ### Exact sizes -/

/-- The size of all columns of a dimension without compression. -/
def exactRawSize (s : Sampling) (d : Dimension) : ℚ := s.points * d.size

/-- The size of all columns of a dimension as runs. -/
def exactRunsSize (d : Dimension) (t : Tally) : ℚ := t.runs * (d.size + 1)

/-- The size of all columns of a dimension without the shared bits. -/
def exactSharedBitsSize (s : Sampling) (d : Dimension) (t : Tally) : ℚ :=
  s.patches * 2 * d.size + s.points * s.ownBits d t / 8

/-- The mode that the counts of a dimension speak for, if nothing is rounded. -/
def recommendExactly : Advisor := fun s d t =>
  if d.type = .float64 then .deflate
  else if 4 < exactRawSize s d / exactRunsSize d t then .rle
  else if 8 / 5 < exactRawSize s d / exactSharedBitsSize s d t then .sigbits
  else .deflate

/-- The advisor speaks for runs and for shared bits only where they save as much as is asked for. -/
structure IsCautious (advisor : Advisor) : Prop where
  runs : ∀ s d t, advisor s d t = .rle → 4 < exactRawSize s d / exactRunsSize d t
  sharedBits : ∀ s d t, advisor s d t = .sigbits →
    8 / 5 < exactRawSize s d / exactSharedBitsSize s d t

theorem isCautious_recommendExactly : IsCautious recommendExactly where
  runs := by
    intro s d t h
    rw [recommendExactly] at h
    split_ifs at h
    assumption
  sharedBits := by
    intro s d t h
    rw [recommendExactly] at h
    split_ifs at h
    assumption

/-- What it says of the counts that runs save three quarters. -/
theorem lt_of_exactRunsSize {s : Sampling} {d : Dimension} {t : Tally}
    (h : 4 < exactRawSize s d / exactRunsSize d t) :
    4 * (t.runs * (d.size + 1)) < s.points * d.size := by
  have hnonneg : 0 ≤ exactRunsSize d t := by
    rw [exactRunsSize]
    positivity
  rcases hnonneg.eq_or_lt with hzero | hpos
  · -- there is no ratio
    rw [← hzero, div_zero] at h
    norm_num at h
  · rw [lt_div_iff₀ hpos, exactRunsSize, exactRawSize] at h
    exact_mod_cast h

/-- What it says of the counts of a single patch that the raw size is more than 1.6 times that without
the shared bits. -/
theorem lt_of_exactSharedBitsSize {s : Sampling} {d : Dimension} {t : Tally} (hpatches : s.patches = 1)
    (h : 8 / 5 < exactRawSize s d / exactSharedBitsSize s d t) :
    8 * (2 * d.size) + s.points * (8 * d.size - t.sharedBits) < 5 * (s.points * d.size) := by
  have hown : s.ownBits d t = 8 * d.size - t.sharedBits := by
    rw [ownBits, hpatches, Nat.max_self, Nat.div_one]
  have hsize : (0 : ℚ) < d.size := Nat.cast_pos.2 d.type.size_pos
  have hpos : 0 < exactSharedBitsSize s d t := by
    rw [exactSharedBitsSize, hpatches]
    positivity
  rw [lt_div_iff₀ hpos, exactSharedBitsSize, exactRawSize, hpatches, hown, Nat.cast_one, one_mul] at h
  have hsizes : (8 * (2 * d.size) + s.points * (8 * d.size - t.sharedBits : ℕ) : ℚ)
      < 5 * (s.points * d.size) := by linarith
  exact_mod_cast hsizes

/-! ### A single patch -/

section

variable {advisor : Advisor} {z : ColumnCodec} {s s' : Sampling} {p : ColumnPatch}
  {raws : List Column}

theorem getElem?_addCounts {ts : List Tally} {ns : List (Nat × Nat)} {i : Nat} {t : Tally}
    {n : Nat × Nat} (ht : ts[i]? = some t) (hn : ns[i]? = some n) :
    (addCounts ts ns)[i]?
      = some { t with runs := t.runs + n.1, sharedBits := t.sharedBits + n.2 } := by
  induction ts generalizing ns i with
  | nil => cases ht
  | cons u ts ih =>
    cases ns with
    | nil => cases hn
    | cons m ns =>
      cases i with
      | zero =>
        cases ht
        cases hn
        rfl
      | succ i => exact ih ht hn

/-- What has been seen of a dimension once the counts of a single patch are taken in. -/
theorem getElem?_addCounts_start {schema : Schema} {ns : List (Nat × Nat)} {i : Nat} {n : Nat × Nat}
    (hi : i < (start schema).tallies.length) (hn : ns[i]? = some n) :
    (addCounts (start schema).tallies ns)[i]? = some { runs := n.1, sharedBits := n.2 } := by
  have hstart : (start schema).tallies[i]? = some {} :=
    (List.getElem?_eq_getElem hi).trans (congrArg some (List.getElem_replicate _))
  rw [getElem?_addCounts hstart hn, Nat.zero_add, Nat.zero_add]

theorem getElem?_adviseBy {ds : List Dimension} {ts : List Tally} {i : Nat} {d : Dimension}
    {t : Tally} (hd : ds[i]? = some d) (ht : ts[i]? = some t) :
    (adviseBy advisor s ds ts)[i]? = some { t with advice := advisor s d t } := by
  induction ts generalizing ds i with
  | nil => cases ht
  | cons u ts ih =>
    cases ds with
    | nil => cases hd
    | cons e ds =>
      cases i with
      | zero =>
        cases hd
        cases ht
        rfl
      | succ i => exact ih hd ht

theorem length_adviseBy (s : Sampling) (ds : List Dimension) (ts : List Tally) :
    (adviseBy advisor s ds ts).length = ts.length := by
  induction ts generalizing ds with
  | nil => cases ds <;> rfl
  | cons t ts ih =>
    cases ds with
    | nil => rfl
    | cons d ds => exact congrArg Nat.succ (ih ds)

theorem exists_updateBy (advisor : Advisor) (hs : s.tallies.length = p.schema.slotCount)
    (h : p.Holds z raws) :
    ∃ s', updateBy advisor z s p = .ok s' ∧ s'.tallies.length = s.tallies.length := by
  obtain ⟨ns, hns⟩ := exists_mapM_counts h
  refine ⟨takeBy advisor s p.schema.dimensions p.count ns, ?_, ?_⟩
  · rw [updateBy, check_eq_ok_iff]
    exact ⟨not_not_intro hs.symm, bind_eq_ok_iff.2 ⟨ns, hns, rfl⟩⟩
  · exact (length_adviseBy _ _ _).trans (length_addCounts s.tallies ns)

/-- A sampling that has taken in a single patch knows of each dimension the counts of its column,
and advises what the advisor says about these. -/
theorem exists_tally_of_updateBy (h : p.Holds z raws)
    (hupdate : updateBy advisor z (start p.schema) p = .ok s') {i : Nat} {raw : Column} {mode : Mode}
    (hraw : raws[i]? = some raw) (hmode : s'.advice? i = some mode) :
    ∃ d t once, p.schema.dimensions[i]? = some d ∧ ColumnPatch.Fits p.count d raw
      ∧ once.points = p.count ∧ once.patches = 1
      ∧ raw.runCount = .ok t.runs ∧ raw.sharedBitCount = .ok t.sharedBits
      ∧ mode = advisor once d t := by
  rw [updateBy, check_eq_ok_iff] at hupdate
  obtain ⟨-, hupdate⟩ := hupdate
  obtain ⟨ns, hns, hupdate⟩ := bind_eq_ok_iff.1 hupdate
  cases hupdate
  obtain ⟨d, hd, hfits⟩ := exists_getElem? h.fits.flip hraw
  obtain ⟨c, hc, hdecode⟩ := exists_getElem? h.decode.flip hraw
  obtain ⟨n, hn, hcounts⟩ := exists_getElem? (mapM_eq_ok_iff.1 hns) hc
  obtain ⟨raw', hraw', hruns, hbits⟩ := counts_eq_ok_iff.1 hcounts
  obtain rfl := Except.ok.inj (hdecode.symm.trans hraw')
  obtain ⟨t, ht, rfl⟩ := Option.map_eq_some_iff.1 hmode
  have hi : i < (start p.schema).tallies.length := by
    have hlt := (List.getElem?_eq_some_iff.1 ht).1
    rwa [takeBy, length_adviseBy, length_addCounts] at hlt
  rw [takeBy, getElem?_adviseBy hd (getElem?_addCounts_start hi hn)] at ht
  cases ht
  exact ⟨d, _, _, hd, hfits, Nat.zero_add _, rfl, hruns, hbits, rfl⟩

/-- What a cautious advisor says about a single patch pays for each of its columns. -/
theorem lt_of_updateBy (hadvisor : IsCautious advisor) (h : p.Holds z raws)
    (hupdate : updateBy advisor z (start p.schema) p = .ok s') {i : Nat} {raw c : Column}
    {mode : Mode} (hraw : raws[i]? = some raw) (hmode : s'.advice? i = some mode)
    (hshort : mode = .rle ∨ mode = .sigbits) {level : Nat}
    (hc : raw.encode z level mode = .ok c) : c.payload.length < raw.payload.length := by
  obtain ⟨d, t, once, -, ⟨htype, hcount, -⟩, hpoints, hpatches, hruns, hbits, hadvice⟩ :=
    exists_tally_of_updateBy h hupdate hraw hmode
  have hmem := List.mem_of_getElem? hraw
  have hlength := h.length_of_mem hmem
  have hsize : d.size = raw.type.size := congrArg Interpretation.size htype.symm
  rw [hlength]
  rcases hshort with rfl | rfl
  · have htest := lt_of_exactRunsSize (hadvisor.runs once d t hadvice.symm)
    rw [hpoints, hsize, ← hcount] at htest
    obtain ⟨-, hle⟩ := Column.length_of_encode_rle (h.mode_of_mem hmem) hlength hruns hc
    exact lt_of_runs raw.type.size_pos hle htest
  · have htest := lt_of_exactSharedBitsSize hpatches (hadvisor.sharedBits once d t hadvice.symm)
    rw [hpoints, hsize, ← hcount] at htest
    obtain ⟨-, heq⟩ := Column.length_of_encode_sigbits (h.mode_of_mem hmem) hlength hbits hc
    rw [heq]
    exact lt_of_sharedBits raw.type.size_pos htest

end

end Sampling

/-! ### Compression -/

theorem Column.eq_of_encode {z : ColumnCodec} {level : Nat} {mode : Mode} {raw c : Column}
    (hraw : raw.mode = .raw) (hc : raw.encode z level mode = .ok c) :
    c = { raw with mode, payload := c.payload } := by
  obtain ⟨type, count, mode', bytes⟩ := raw
  obtain rfl : mode' = .raw := hraw
  obtain ⟨payload, hstored⟩ := exists_encode z type count bytes level mode
  obtain rfl := Except.ok.inj (hstored.symm.trans hc)
  rfl

namespace ColumnPatch

open Sampling

/-- The sampling by which a raw patch is stored, by a given advisor. -/
def sampleBy (advisor : Advisor) (e : Engine) (s : Sampling) (raw : ColumnPatch) :
    Except Fault Sampling :=
  if s.points < e.config.sampleThreshold then updateBy advisor e.deflate s raw else .ok s

/-- The patch with every column stored in the mode that a given advisor speaks for, and the sampling
that gave the advice. -/
def compressBy (advisor : Advisor) (e : Engine) (s : Sampling) (p : ColumnPatch) :
    Except Fault (ColumnPatch × Sampling) := do
  let raw ← p.decode e.deflate
  let s ← sampleBy advisor e s raw
  let columns ← raw.columns.zipIdx.mapM fun (c, position) => encodeColumn e s c position
  return ({ raw with columns }, s)

theorem compressBy_recommend : compressBy recommend = compress := by
  funext e s p
  simp only [compressBy, compress, sampleBy, sample, updateBy_recommend]

variable {advisor : Advisor} {e : Engine} {s : Sampling} {p q : ColumnPatch} {raws : List Column}

theorem encodeColumn_eq_ok_iff {raw c : Column} {i : Nat} :
    encodeColumn e s raw i = .ok c ↔ ∃ mode, s.advice? i = some mode
      ∧ raw.encode e.deflate e.config.deflateLevel mode = .ok c := by
  rw [encodeColumn]
  rcases s.advice? i with - | mode
  · simp
  · simp

/-- The raw form of a patch holds what the patch holds. -/
theorem Holds.raw {z : ColumnCodec} (h : p.Holds z raws) : { p with columns := raws }.Holds z raws where
  decode := forall₂_decode_raw fun _ => h.mode_of_mem
  fits := h.fits

theorem Holds.exists_compressBy (advisor : Advisor) (hf : p.schema.isFilled = true)
    (hs : s.tallies.length = p.schema.slotCount) (h : p.Holds e.deflate raws) :
    ∃ q s', compressBy advisor e s p = .ok (q, s') := by
  obtain ⟨sampled, hsample, hlength⟩ : ∃ s', sampleBy advisor e s { p with columns := raws } = .ok s'
      ∧ s'.tallies.length = s.tallies.length := by
    rw [sampleBy]
    split
    · exact exists_updateBy advisor hs h.raw
    · exact ⟨s, rfl, rfl⟩
  have hslots : raws.length = p.schema.slotCount := by
    rw [← h.fits.length_eq, Schema.length_dimensions hf]
  obtain ⟨cs, hcs⟩ := exists_encoded (e := e) (s := sampled) (by omega)
    fun raw hraw => h.mode_of_mem hraw
  exact ⟨_, sampled, bind_eq_ok_iff.2 ⟨_, h.decode_eq, bind_eq_ok_iff.2 ⟨sampled, hsample,
    bind_eq_ok_iff.2 ⟨cs, hcs, rfl⟩⟩⟩⟩

/-- A patch that is compressed on its own, by the advice of a cautious advisor, has no column that is
stored as runs or without shared bits and is as long as it was. -/
theorem Holds.lt_of_compressBy (hadvisor : IsCautious advisor) (h : p.Holds e.deflate raws)
    {s' : Sampling} (hq : compressBy advisor e (start p.schema) p = .ok (q, s')) {c : Column}
    (hc : c ∈ q.columns) (hshort : c.mode = .rle ∨ c.mode = .sigbits) :
    c.payload.length < c.count * c.type.size := by
  obtain ⟨raw, hraw, hq⟩ := bind_eq_ok_iff.1 hq
  obtain rfl := Except.ok.inj (h.decode_eq.symm.trans hraw)
  obtain ⟨sampled, hsample, hq⟩ := bind_eq_ok_iff.1 hq
  obtain ⟨cs, hcs, hq⟩ := bind_eq_ok_iff.1 hq
  cases hq
  obtain ⟨⟨raw, i⟩, hi, hstored⟩ := exists_of_mem_right (mapM_eq_ok_iff.1 hcs) hc
  have hi : raws[i]? = some raw := List.mk_mem_zipIdx_iff_getElem?.1 hi
  obtain ⟨mode, hmode, hencode⟩ := encodeColumn_eq_ok_iff.1 hstored
  have hmem := List.mem_of_getElem? hi
  rw [Column.eq_of_encode (h.mode_of_mem hmem) hencode] at hshort ⊢
  rw [sampleBy] at hsample
  split at hsample
  · -- the patch is taken in
    have hlength := h.length_of_mem hmem
    exact (lt_of_updateBy hadvisor h.raw hsample hi hmode hshort hencode).trans_eq hlength
  · -- nothing is asked to be seen, and nothing is advised
    cases hsample
    obtain ⟨t, ht, rfl⟩ := Option.map_eq_some_iff.1 hmode
    obtain rfl := List.eq_of_mem_replicate (List.mem_of_getElem? ht)
    rcases hshort with hshort | hshort
    · cases hshort
    · cases hshort

end ColumnPatch

namespace Patch

open Sampling

/-- The patch in the form that its schema asks for, with columns stored by a given advisor. -/
def compressBy (advisor : Advisor) (e : Engine) (s : Sampling) (p : Patch) :
    Except Fault (Patch × Sampling) := do
  if p.isSettled then return (p, s)
  match p.schema.target with
  | .rows => return (.rows (← p.toRows e), s)
  | .columns =>
    let (p, s) ← (← p.toColumns e).compressBy advisor e s
    return (.columns p, s)
  | .blob =>
    let codec ← e.blobCodec
    return (.blob (← BlobPatch.ofRows codec (← p.toRows e)), s)

theorem compressBy_recommend : compressBy recommend = compress := by
  funext e s p
  rw [compressBy, ColumnPatch.compressBy_recommend]
  rfl

variable {advisor : Advisor} {e : Engine} {s s' : Sampling} {p : Patch} {q : ColumnPatch}

theorem compressBy_eq_of_toColumns (htarget : p.schema.target = .columns) {c : ColumnPatch}
    (hc : p.toColumns e = .ok c) :
    p.compressBy advisor e s = (c.compressBy advisor e s).map fun r => (.columns r.1, r.2) := by
  have hsettled : ¬ p.isSettled = true := fun h => target_ne_of_isSettled h htarget
  rw [compressBy, if_neg hsettled, htarget]
  show (p.toColumns e >>= fun c => _) = _
  rw [hc, ok_bind]
  rfl

/-- Only columns are compressed to columns. -/
theorem target_of_compressBy (h : p.compressBy advisor e s = .ok (.columns q, s')) :
    p.schema.target = .columns := by
  rw [compressBy] at h
  split at h
  · -- the patch itself would be settled
    rename_i hsettled
    cases h
    cases hsettled
  · split at h
    · obtain ⟨raw, -, h⟩ := bind_eq_ok_iff.1 h
      cases h
    · assumption
    · obtain ⟨codec, -, h⟩ := bind_eq_ok_iff.1 h
      obtain ⟨raw, -, h⟩ := bind_eq_ok_iff.1 h
      obtain ⟨b, -, h⟩ := bind_eq_ok_iff.1 h
      cases h

/-- A patch that is compressed on its own, by a cautious advisor, has no column that is stored as
runs or without shared bits and is as long as it was. -/
theorem WellFormed.lt_of_compressBy (hadvisor : IsCautious advisor) (hb : p.schema.Built)
    (hp : p.WellFormed e) (h : p.compressBy advisor e (start p.schema) = .ok (.columns q, s'))
    {c : Column} (hc : c ∈ q.columns) (hshort : c.mode = .rle ∨ c.mode = .sigbits) :
    c.payload.length < c.count * c.type.size := by
  obtain ⟨p', raws, -, hcolumns, hsame, hholds, -, -⟩ := hp.exists_toColumns hb
  have hschema : p'.schema = p.schema := congrArg PatchHeader.schema hsame
  rw [compressBy_eq_of_toColumns (target_of_compressBy h) hcolumns, ← hschema] at h
  obtain ⟨r, hr, h⟩ := map_eq_ok_iff.1 h
  cases h
  exact hholds.lt_of_compressBy hadvisor hr hc hshort

theorem WellFormed.exists_compressBy (advisor : Advisor) (hb : p.schema.Built)
    (hf : p.schema.isFilled = true) (htarget : p.schema.target = .columns) (hp : p.WellFormed e) :
    ∃ q s', p.compressBy advisor e (start p.schema) = .ok (.columns q, s') := by
  obtain ⟨p', raws, -, hcolumns, hsame, hholds, -, -⟩ := hp.exists_toColumns hb
  have hschema : p'.schema = p.schema := congrArg PatchHeader.schema hsame
  rw [← hschema] at hf
  obtain ⟨q, s', hq⟩ := hholds.exists_compressBy (s := start p'.schema) advisor hf
    List.length_replicate
  rw [compressBy_eq_of_toColumns htarget hcolumns, ← hschema, hq]
  exact ⟨q, s', rfl⟩

end Patch

/-! ### Estimates and advice -/

/-- The sizes of a raw column as runs and without shared bits, as far as they follow from its
counts, and that both ratios leave enough room. -/
theorem Column.exists_estimated_sizes (z : ColumnCodec) (level : Nat) {raw : Column}
    (hraw : raw.mode = .raw) (hlength : raw.payload.length = raw.count * raw.type.size) :
    ∃ runs bits rle sigbits, raw.runCount = .ok runs ∧ raw.sharedBitCount = .ok bits
      ∧ raw.encode z level .rle = .ok rle ∧ raw.encode z level .sigbits = .ok sigbits
      ∧ runs * (raw.type.size + 1) ≤ rle.payload.length
      ∧ rle.payload.length ≤ (runs + raw.count / 255) * (raw.type.size + 1)
      ∧ bits ≤ 8 * raw.type.size
      ∧ sigbits.payload.length
          = 2 * raw.type.size + (raw.count * (8 * raw.type.size - bits) + 7) / 8
      ∧ ((4 : ℚ) * (runs * (raw.type.size + 1)) < raw.count * raw.type.size →
          rle.payload.length < raw.payload.length)
      ∧ ((8 / 5 : ℚ) * (2 * raw.type.size + raw.count * (8 * raw.type.size - bits) / 8)
            < raw.count * raw.type.size →
          sigbits.payload.length < raw.payload.length) := by
  obtain ⟨type, count, mode, bytes⟩ := raw
  obtain rfl : mode = .raw := hraw
  obtain ⟨runs, hruns⟩ := exists_runCount type count bytes
  obtain ⟨bits, hbits⟩ := exists_sharedBitCount type count bytes
  obtain ⟨rle, hrle⟩ := exists_encode z type count bytes level .rle
  obtain ⟨sigbits, hsigbits⟩ := exists_encode z type count bytes level .sigbits
  obtain ⟨hge, hle⟩ := length_of_encode_rle rfl hlength hruns hrle
  obtain ⟨hbits_le, heq⟩ := length_of_encode_sigbits rfl hlength hbits hsigbits
  refine ⟨runs, bits, _, _, hruns, hbits, hrle, hsigbits, hge, hle, hbits_le, heq, ?_, ?_⟩
  · intro h
    rw [hlength]
    exact lt_of_runs type.size_pos hle (by exact_mod_cast h)
  · intro h
    have hown : ((8 * type.size - bits : ℕ) : ℚ) = 8 * type.size - bits := by
      rw [Nat.cast_sub hbits_le, Nat.cast_mul, Nat.cast_ofNat]
    have hsizes : (8 * (2 * type.size) + count * (8 * type.size - bits : ℕ) : ℚ)
        < 5 * (count * type.size) := by
      rw [hown]
      linarith
    rw [hlength, heq]
    exact lt_of_sharedBits type.size_pos (by exact_mod_cast hsizes)

namespace Patch

open Sampling

/-- How long a raw column is in each mode follows from its counts, up to the runs that are too long
for a pair; and the ratios that are asked for, compared exactly, leave enough room: what is advised
by a sampling that has seen a single patch makes its columns shorter, and so does every compression
of a patch on its own.  With the advisor that there is, which rounds, this compression is the one
that there is. -/
theorem estimates_bound_and_advice_shrinks :
    (∀ (z : ColumnCodec) (level : Nat) (raw : Column), raw.mode = .raw →
      raw.payload.length = raw.count * raw.type.size →
      ∃ runs bits rle sigbits, raw.runCount = .ok runs ∧ raw.sharedBitCount = .ok bits
        ∧ raw.encode z level .rle = .ok rle ∧ raw.encode z level .sigbits = .ok sigbits
        ∧ runs * (raw.type.size + 1) ≤ rle.payload.length
        ∧ rle.payload.length ≤ (runs + raw.count / 255) * (raw.type.size + 1)
        ∧ bits ≤ 8 * raw.type.size
        ∧ sigbits.payload.length
            = 2 * raw.type.size + (raw.count * (8 * raw.type.size - bits) + 7) / 8
        ∧ ((4 : ℚ) * (runs * (raw.type.size + 1)) < raw.count * raw.type.size →
            rle.payload.length < raw.payload.length)
        ∧ ((8 / 5 : ℚ) * (2 * raw.type.size + raw.count * (8 * raw.type.size - bits) / 8)
              < raw.count * raw.type.size →
            sigbits.payload.length < raw.payload.length))
    ∧ (∀ (z : ColumnCodec) (p : ColumnPatch) (raws : List Column) (s : Sampling),
        p.Holds z raws → updateBy recommendExactly z (start p.schema) p = .ok s →
        ∀ i raw mode, raws[i]? = some raw → s.advice? i = some mode →
          mode = .rle ∨ mode = .sigbits → ∀ level c, raw.encode z level mode = .ok c →
            c.payload.length < raw.payload.length)
    ∧ (∀ (e : Engine) (p : Patch), p.schema.Built → p.WellFormed e →
        (p.schema.isFilled = true → p.schema.target = .columns →
          ∃ q s, p.compressBy recommendExactly e (start p.schema) = .ok (.columns q, s))
        ∧ ∀ q s, p.compressBy recommendExactly e (start p.schema) = .ok (.columns q, s) →
            ∀ c ∈ q.columns, c.mode = .rle ∨ c.mode = .sigbits →
              c.payload.length < c.count * c.type.size)
    ∧ Patch.compressBy recommend = Patch.compress := by
  refine ⟨fun z level raw hraw hlength => Column.exists_estimated_sizes z level hraw hlength,
    ?_, fun e p hb hp => ⟨?_, ?_⟩, compressBy_recommend⟩
  · intro z p raws s hholds hupdate i raw mode hraw hmode hshort level c hc
    exact lt_of_updateBy isCautious_recommendExactly hholds hupdate hraw hmode hshort hc
  · exact fun hf htarget => hp.exists_compressBy recommendExactly hb hf htarget
  · exact fun q s hq c hc hshort => hp.lt_of_compressBy isCautious_recommendExactly hb hq hc hshort

/-- Nine points with a field that is the same in all of them, and one in which they differ in the last
bit only. -/
def steady : ColumnPatch where
  schema :=
    { (Schema.vacant 2).afterSets
        [{ name := "A", position := 0, type := .uint8 },
          { name := "B", position := 1, type := .uint16 }] with
      target := .columns }
  count := 9
  columns :=
    [⟨.uint8, 9, .raw, [7, 7, 7, 7, 7, 7, 7, 7, 7]⟩,
      ⟨.uint16, 9, .raw, [0, 1, 1, 1, 0, 1, 1, 1, 0, 1, 1, 1, 0, 1, 1, 1, 0, 1]⟩]

theorem steady_holds (z : ColumnCodec) : steady.Holds z steady.columns where
  decode := .cons rfl (.cons rfl .nil)
  fits := .cons ⟨rfl, rfl, rfl⟩ (.cons ⟨rfl, rfl, rfl⟩ .nil)

/-- One of its columns is stored as runs, and the other without its shared bits. -/
theorem estimates_bound_and_advice_shrinks_steady :
    let e : Engine := { deflate := Deflate.codec }
    ∃ q s, (Patch.columns steady).compressBy recommendExactly e (start steady.schema)
        = .ok (.columns q, s)
      ∧ q.columns = [⟨.uint8, 9, .rle, [9, 7]⟩, ⟨.uint16, 9, .sigbits, [15, 0, 0, 1, 0x55, 0]⟩]
      ∧ ∀ c ∈ q.columns, c.payload.length < c.count * c.type.size := by
  intro e
  have hb : steady.schema.Built :=
    ((Schema.Built.vacant 2).afterSets _).label _ _ .columns
  have hp : (Patch.columns steady).WellFormed e :=
    wellFormed_columns_iff.2 ⟨_, steady_holds Deflate.codec⟩
  obtain ⟨-, -, hpatches, -⟩ := estimates_bound_and_advice_shrinks
  obtain ⟨hexists, hshorter⟩ := hpatches e (.columns steady) hb hp
  obtain ⟨q, s, hq⟩ : ∃ q s, (Patch.columns steady).compressBy recommendExactly e
      (start steady.schema) = .ok (.columns q, s) := hexists (by decide) rfl
  have hcolumns : q.columns
      = [⟨.uint8, 9, .rle, [9, 7]⟩, ⟨.uint16, 9, .sigbits, [15, 0, 0, 1, 0x55, 0]⟩] := by
    have hstored : (steady.compressBy recommendExactly e (start steady.schema)).map
          (fun r => r.1.columns)
        = .ok [⟨.uint8, 9, .rle, [9, 7]⟩, ⟨.uint16, 9, .sigbits, [15, 0, 0, 1, 0x55, 0]⟩] := by
      decide +kernel
    obtain ⟨r, hr, hcolumns⟩ := map_eq_ok_iff.1 hstored
    rw [compressBy_eq_of_toColumns rfl rfl, hr] at hq
    cases hq
    exact hcolumns
  refine ⟨q, s, hq, hcolumns, fun c hc => hshorter q s hq c hc ?_⟩
  rw [hcolumns, List.mem_cons, List.mem_singleton] at hc
  rcases hc with rfl | rfl
  · exact .inl rfl
  · exact .inr rfl

end Patch

end PointPatch
