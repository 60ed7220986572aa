/-
PointPatch/Proofs/Patch/Compression.lean

Compressing a patch does not change what it holds.

Whatever form a well-formed patch has and whatever form its schema asks for,
it is compressed to that form with the same header and the same rows.  Between
rows and columns this is weaving and gathering; columns are decoded and stored
anew, each in the mode that is advised, and decode to the same again
(`ColumnPatch.Holds.of_compress`).  The advice has no part in it: all that
matters of a sampling is that it has an entry for each slot
(`ColumnPatch.exists_compress`), and taking in a patch keeps that
(`Sampling.length_take`).
-/
import PointPatch.Proofs.Patch.WellFormed

namespace PointPatch

/-! ### Samplings -/

namespace Sampling

theorem length_addCounts (ts : List Tally) (counts : List (Nat × Nat)) :
    (addCounts ts counts).length = ts.length := by
  induction ts generalizing counts with
  | nil => cases counts <;> rfl
  | cons t ts ih =>
    cases counts with
    | nil => rfl
    | cons count counts =>
      show (addCounts ts counts).length + 1 = ts.length + 1
      rw [ih]

theorem length_advise (s : Sampling) (ds : List Dimension) (ts : List Tally) :
    (s.advise ds ts).length = ts.length := by
  induction ts generalizing ds with
  | nil => cases ds <;> rfl
  | cons t ts ih =>
    cases ds with
    | nil => rfl
    | cons d ds =>
      show (s.advise ds ts).length + 1 = ts.length + 1
      rw [ih]

/-- Taking in a patch keeps the number of entries. -/
theorem length_take (s : Sampling) (ds : List Dimension) (points : Nat)
    (counts : List (Nat × Nat)) : (s.take ds points counts).tallies.length = s.tallies.length :=
  (length_advise _ ds _).trans (length_addCounts s.tallies counts)

/-- The counts of a column are those of what it decodes to. -/
theorem counts_eq_ok_iff {z : ColumnCodec} {c : Column} {n : Nat × Nat} :
    counts z c = .ok n ↔ ∃ raw, c.decode z = .ok raw ∧ raw.runCount = .ok n.1
      ∧ raw.sharedBitCount = .ok n.2 := by
  rw [counts, bind_eq_ok_iff]
  refine exists_congr fun raw => and_congr_right fun _ => ?_
  constructor
  · intro h
    obtain ⟨runs, hruns, h⟩ := bind_eq_ok_iff.1 h
    obtain ⟨bits, hbits, h⟩ := bind_eq_ok_iff.1 h
    cases h
    exact ⟨hruns, hbits⟩
  · rintro ⟨hruns, hbits⟩
    exact bind_eq_ok_iff.2 ⟨n.1, hruns, bind_eq_ok_iff.2 ⟨n.2, hbits, rfl⟩⟩

theorem exists_counts {z : ColumnCodec} {raw : Column} (h : raw.mode = .raw) :
    ∃ n, counts z raw = .ok n := by
  obtain ⟨type, count, mode, bytes⟩ := raw
  obtain rfl : mode = .raw := h
  obtain ⟨runs, hruns⟩ := Column.exists_runCount type count bytes
  obtain ⟨bits, hbits⟩ := Column.exists_sharedBitCount type count bytes
  exact ⟨(runs, bits), counts_eq_ok_iff.2 ⟨_, Column.decode_raw type count bytes, hruns, hbits⟩⟩

/-- A patch of raw columns can be taken in by a sampling with an entry for each slot. -/
theorem exists_update {z : ColumnCodec} {s : Sampling} {p : ColumnPatch}
    (hs : s.tallies.length = p.schema.slotCount) (h : ∀ c ∈ p.columns, c.mode = .raw) :
    ∃ s', s.update z p = .ok s' ∧ s'.tallies.length = s.tallies.length := by
  have hcolumn : ∀ c ∈ p.columns, ∃ n, counts z c = .ok n := fun c hc => exists_counts (h c hc)
  obtain ⟨ns, hns⟩ := exists_forall₂ hcolumn
  refine ⟨s.take p.schema.dimensions p.count ns, ?_, length_take s _ _ _⟩
  rw [update]
  exact check_eq_ok_iff.2 ⟨fun h => h hs.symm, bind_eq_ok_iff.2 ⟨ns, mapM_eq_ok_iff.2 hns, rfl⟩⟩

end Sampling

/-! ### Columns -/

namespace Column

variable {e : Engine} {s : Sampling} {raw c : Column} {position : Nat}

/-- A raw column of the length that it says, for which there is a buffer to be had. -/
structure IsStorable (memory : Memory) (raw : Column) : Prop where
  mode_eq : raw.mode = .raw
  length_payload : raw.payload.length = raw.count * raw.type.size
  granted : memory.grants (raw.count * raw.type.size) = true

theorem IsStorable.exists_encode {z : ColumnCodec} (h : raw.IsStorable z.memory)
    (hz : z.Lossless) (level : Nat) (mode : Mode) :
    ∃ c, raw.encode z level mode = .ok c ∧ c.decode z = .ok raw := by
  obtain ⟨type, count, mode', bytes⟩ := raw
  obtain rfl : mode' = .raw := h.mode_eq
  obtain ⟨c, hc, -, hstores⟩ := exists_encode_stores hz h.length_payload h.granted level mode
  exact ⟨c, hc, hstores.decode⟩

/-- Where there is advice, a raw column is stored. -/
theorem exists_encodeColumn (h : raw.mode = .raw) (hposition : position < s.tallies.length) :
    ∃ c, ColumnPatch.encodeColumn e s raw position = .ok c := by
  obtain ⟨type, count, mode, bytes⟩ := raw
  obtain rfl : mode = .raw := h
  obtain ⟨payload, hc⟩ := Column.exists_encode e.deflate type count bytes e.config.deflateLevel
    s.tallies[position].advice
  rw [ColumnPatch.encodeColumn, Sampling.advice?, List.getElem?_eq_getElem hposition]
  exact ⟨_, hc⟩

theorem IsStorable.decode_of_encodeColumn (h : raw.IsStorable e.deflate.memory)
    (hz : e.deflate.Lossless)
    (hc : ColumnPatch.encodeColumn e s raw position = .ok c) : c.decode e.deflate = .ok raw := by
  rw [ColumnPatch.encodeColumn] at hc
  split at hc
  · cases hc
  · rename_i mode _
    obtain ⟨c', hc', hdecode⟩ := h.exists_encode hz e.config.deflateLevel mode
    rwa [Except.ok.inj (hc.symm.trans hc')]

end Column

namespace ColumnPatch

variable {e : Engine} {s : Sampling} {p : ColumnPatch} {raws : List Column}

theorem exists_sample (hs : s.tallies.length = p.schema.slotCount)
    (h : ∀ c ∈ p.columns, c.mode = .raw) :
    ∃ s', sample e s p = .ok s' ∧ s'.tallies.length = s.tallies.length := by
  rw [sample]
  split
  · exact Sampling.exists_update hs h
  · exact ⟨s, rfl, rfl⟩

/-- Raw columns are stored as advised, as far as there is advice. -/
theorem exists_encoded (hadvice : raws.length ≤ s.tallies.length)
    (hraws : ∀ raw ∈ raws, raw.mode = .raw) :
    ∃ cs, (raws.zipIdx.mapM fun (c, position) => encodeColumn e s c position) = .ok cs := by
  have hcolumn : ∀ x ∈ raws.zipIdx, ∃ c, encodeColumn e s x.1 x.2 = .ok c := by
    intro x hx
    have hposition : x.2 < s.tallies.length := (List.snd_lt_of_mem_zipIdx hx).trans_le (by omega)
    exact Column.exists_encodeColumn (hraws x.1 (List.fst_mem_of_mem_zipIdx hx)) hposition
  obtain ⟨cs, hcs⟩ := exists_forall₂ hcolumn
  exact ⟨cs, mapM_eq_ok_iff.2 hcs⟩

/-- Raw columns that have been stored decode to what they were, whatever was advised. -/
theorem decode_of_encoded (hz : e.deflate.Lossless) {cs : List Column}
    (hraws : ∀ raw ∈ raws, raw.IsStorable e.deflate.memory)
    (h : (raws.zipIdx.mapM fun (c, position) => encodeColumn e s c position) = .ok cs) :
    cs.Forall₂ (fun c raw => c.decode e.deflate = .ok raw) raws := by
  have hcolumns := (List.forall₂_and_left _ _).2
    ⟨fun x hx => hraws x.1 (List.fst_mem_of_mem_zipIdx hx), mapM_eq_ok_iff.1 h⟩
  have hdecode : (raws.zipIdx.map Prod.fst).Forall₂ (fun raw c => c.decode e.deflate = .ok raw) cs :=
    List.forall₂_map_left_iff.2 (hcolumns.imp fun x c h => h.1.decode_of_encodeColumn hz h.2)
  rw [List.zipIdx_map_fst] at hdecode
  exact hdecode.flip

/-- Raw columns are what they decode to. -/
theorem forall₂_decode_raw {z : ColumnCodec} (hmode : ∀ raw ∈ raws, raw.mode = .raw) :
    raws.Forall₂ (fun c raw => c.decode z = .ok raw) raws := by
  refine List.forall₂_same.2 fun raw hraw => ?_
  obtain ⟨type, count, mode, bytes⟩ := raw
  obtain rfl : mode = .raw := hmode _ hraw
  exact Column.decode_raw type count bytes

/-- What a patch holds is raw. -/
theorem Holds.mode_of_mem {z : ColumnCodec} (h : p.Holds z raws) {raw : Column}
    (hraw : raw ∈ raws) : raw.mode = .raw := by
  obtain ⟨c, -, hdecode⟩ := exists_of_mem_right h.decode hraw
  exact Column.mode_of_decode hdecode

/-- What a patch holds can be stored, if there are buffers for its columns. -/
theorem Holds.isStorable (h : p.Holds e.deflate raws)
    (hmem : ∀ d ∈ p.schema.dimensions, e.deflate.memory.grants (p.count * d.size) = true) :
    ∀ raw ∈ raws, raw.IsStorable e.deflate.memory := by
  intro raw hraw
  obtain ⟨d, hd, htype, hcount, -⟩ := exists_of_mem_right h.fits hraw
  refine ⟨h.mode_of_mem hraw, h.length_of_mem hraw, ?_⟩
  rw [hcount, htype]
  exact hmem d hd

theorem Holds.decode_eq {z : ColumnCodec} (h : p.Holds z raws) :
    p.decode z = .ok { p with columns := raws } :=
  bind_eq_ok_iff.2 ⟨raws, mapM_eq_ok_iff.2 h.decode, rfl⟩

/-- A patch whose columns have been stored anew holds what it held. -/
theorem Holds.of_compress {s' : Sampling} {q : ColumnPatch} (hz : e.deflate.Lossless)
    (h : p.Holds e.deflate raws)
    (hmem : ∀ d ∈ p.schema.dimensions, e.deflate.memory.grants (p.count * d.size) = true)
    (hq : p.compress e s = .ok (q, s')) :
    q.toPatchHeader = p.toPatchHeader ∧ q.Holds e.deflate raws := by
  obtain ⟨decoded, hdecoded, hq⟩ := bind_eq_ok_iff.1 hq
  obtain rfl := Except.ok.inj (h.decode_eq.symm.trans hdecoded)
  obtain ⟨sampled, -, hq⟩ := bind_eq_ok_iff.1 hq
  obtain ⟨cs, hcs, hq⟩ := bind_eq_ok_iff.1 hq
  cases hq
  exact ⟨rfl, decode_of_encoded hz (h.isStorable hmem) hcs, h.fits⟩

/-- With an entry for each slot in the sampling, columns can be stored anew. -/
theorem exists_compress (hf : p.schema.isFilled = true)
    (hs : s.tallies.length = p.schema.slotCount) (h : p.Holds e.deflate raws) :
    ∃ q s', p.compress e s = .ok (q, s') := by
  have hraws : ∀ raw ∈ raws, raw.mode = .raw := fun raw hraw => h.mode_of_mem hraw
  obtain ⟨s', hsample, hs'⟩ := exists_sample (e := e) (p := { p with columns := raws }) hs hraws
  have hslots : raws.length = p.schema.slotCount := by
    rw [← h.fits.length_eq, Schema.length_dimensions hf]
  obtain ⟨cs, hcs⟩ := exists_encoded (e := e) (s := s') (by omega) hraws
  exact ⟨_, s', bind_eq_ok_iff.2 ⟨_, h.decode_eq, bind_eq_ok_iff.2 ⟨s', hsample,
    bind_eq_ok_iff.2 ⟨cs, hcs, rfl⟩⟩⟩⟩

/-- Rows that are split into columns are held by these. -/
theorem exists_holds_ofRows {z : ColumnCodec} {p : RowPatch} (hb : p.schema.Built)
    (hlength : p.rows.length = p.schema.size * p.count) :
    ∃ raws, (ofRows p).Holds z raws ∧ wovenRows p.count raws = p.rows := by
  rcases Nat.eq_zero_or_pos p.schema.size with hsize | hsize
  · -- rows without bytes have no columns
    have hnil := Schema.dimensions_eq_nil_of_size hsize
    rw [hsize, Nat.zero_mul, List.length_eq_zero_iff] at hlength
    have hcolumns : (ofRows p).columns = [] := by
      rw [ofRows, hnil]
      rfl
    refine ⟨[], ⟨?_, ?_⟩, ?_⟩
    · rw [hcolumns]
      exact .nil
    · show p.schema.dimensions.Forall₂ _ _
      rw [hnil]
      exact .nil
    · rw [hlength, wovenRows]
      simp
  · have hcount : p.rows.length / p.schema.size = p.count := by
      rw [hlength, Nat.mul_div_cancel_left _ hsize]
    have hmod : p.rows.length % p.schema.size = 0 := by
      rw [hlength, Nat.mul_mod_right]
    refine ⟨_, ⟨?_, fits_gather hb hcount⟩, hcount ▸ wovenRows_gather hb hmod⟩
    rw [ofRows, List.forall₂_same]
    intro c hc
    obtain ⟨d, -, rfl⟩ := List.mem_map.1 hc
    rfl

end ColumnPatch

/-! ### Patches -/

/-- A codec gives back all rows of one length that it is handed. -/
def BlobCodec.Restores (codec : BlobCodec) (schema : Schema) (count : Nat) : Prop :=
  ∀ rows, rows.length = schema.size * count →
    ∃ blob, codec.encode schema rows (UInt32.ofNat count) = .ok blob
      ∧ codec.decode schema blob (UInt32.ofNat count) = .ok rows

namespace Patch

variable {e : Engine} {s : Sampling} {p : Patch}

/-- A well-formed patch can be held as columns, which are woven to its rows. -/
theorem WellFormed.exists_toColumns (hb : p.schema.Built) (hp : p.WellFormed e) :
    ∃ c raws raw, p.toColumns e = .ok c ∧ c.toPatchHeader = p.header ∧ c.Holds e.deflate raws
      ∧ p.toRows e = .ok raw ∧ raw.rows = ColumnPatch.wovenRows p.count raws := by
  cases p with
  | rows p =>
    obtain ⟨raws, hholds, hwoven⟩ := ColumnPatch.exists_holds_ofRows hb hp
    exact ⟨_, raws, p, rfl, rfl, hholds, rfl, hwoven.symm⟩
  | columns p =>
    obtain ⟨raws, hholds⟩ := wellFormed_columns_iff.1 hp
    exact ⟨p, raws, _, rfl, rfl, hholds, hholds.toRows hb, rfl⟩
  | blob p =>
    obtain ⟨raw, hraw, hlength⟩ := hp.exists_toRows hb
    have hschema : raw.schema = p.schema := schema_of_toRows hraw
    have hcount : raw.count = p.count := count_of_toRows hraw
    obtain ⟨raws, hholds, hwoven⟩ := ColumnPatch.exists_holds_ofRows (z := e.deflate) (p := raw)
      (by rw [hschema]; exact hb) (by rw [hschema, hcount]; exact hlength)
    refine ⟨_, raws, raw, bind_eq_ok_iff.2 ⟨raw, hraw, rfl⟩, header_of_toRows hraw, hholds, hraw,
      ?_⟩
    rw [← hwoven, hcount]
    rfl

/-- Rows that a codec gives back can be held as a blob. -/
theorem exists_ofRows {codec : BlobCodec} {raw : RowPatch}
    (hregistered : e.blobCodec? = some codec) (hrestores : codec.Restores raw.schema raw.count)
    (hlength : raw.rows.length = raw.schema.size * raw.count) :
    ∃ q : BlobPatch, BlobPatch.ofRows codec raw = .ok q ∧ q.toPatchHeader = raw.toPatchHeader
      ∧ (Patch.blob q).toRows e = .ok (RowPatch.ofHeader raw.toPatchHeader raw.rows) := by
  obtain ⟨blob, hencode, hdecode⟩ := hrestores raw.rows hlength
  refine ⟨{ toPatchHeader := raw.toPatchHeader, blob }, bind_eq_ok_iff.2 ⟨blob, hencode, rfl⟩, rfl,
    ?_⟩
  exact toRows_blob_eq_ok_iff.2 ⟨codec, raw.rows, hregistered, hdecode, hlength, rfl⟩

theorem form_eq_of_isSettled (h : p.isSettled = true) : p.form = p.schema.target := by
  cases p with
  | rows p => exact (beq_iff_eq.1 h).symm
  | columns p => cases h
  | blob p => exact (beq_iff_eq.1 h).symm

theorem target_ne_of_isSettled (h : p.isSettled = true) : p.schema.target ≠ .columns := by
  intro htarget
  have hform := form_eq_of_isSettled h
  rw [htarget] at hform
  cases p with
  | rows p => cases hform
  | columns p => cases h
  | blob p => cases hform

/-- What compressing a patch can come to: the patch itself, or what its schema asks for.  Only
storing columns has to do with the sampling. -/
theorem cases_of_compress {q : Patch} {s' : Sampling} (h : p.compress e s = .ok (q, s')) :
    (p.isSettled = true ∧ q = p ∧ s' = s)
      ∨ (p.schema.target = .rows ∧ s' = s ∧ ∃ raw, p.toRows e = .ok raw ∧ q = .rows raw)
      ∨ (p.schema.target = .blob ∧ s' = s ∧ ∃ codec raw stored, e.blobCodec? = some codec
          ∧ p.toRows e = .ok raw ∧ BlobPatch.ofRows codec raw = .ok stored ∧ q = .blob stored)
      ∨ (p.schema.target = .columns ∧ ∃ c stored, p.toColumns e = .ok c
          ∧ c.compress e s = .ok (stored, s') ∧ q = .columns stored) := by
  rw [compress] at h
  by_cases hsettled : p.isSettled = true
  · rw [if_pos hsettled] at h
    cases h
    exact .inl ⟨hsettled, rfl, rfl⟩
  rw [if_neg hsettled] at h
  rcases htarget : p.schema.target with - | - | -
  · -- to rows
    rw [htarget] at h
    obtain ⟨raw, hraw, h⟩ := bind_eq_ok_iff.1 h
    cases h
    exact .inr (.inl ⟨rfl, rfl, raw, hraw, rfl⟩)
  · -- to a blob
    rw [htarget] at h
    obtain ⟨codec, hcodec, h⟩ := bind_eq_ok_iff.1 h
    obtain ⟨raw, hraw, h⟩ := bind_eq_ok_iff.1 h
    obtain ⟨stored, hstored, h⟩ := bind_eq_ok_iff.1 h
    cases h
    exact .inr (.inr (.inl
      ⟨rfl, rfl, codec, raw, stored, blobCodec_eq_ok_iff.1 hcodec, hraw, hstored, rfl⟩))
  · -- to columns
    rw [htarget] at h
    obtain ⟨c, hc, h⟩ := bind_eq_ok_iff.1 h
    obtain ⟨⟨stored, t⟩, hstored, h⟩ := bind_eq_ok_iff.1 h
    cases h
    exact .inr (.inr (.inr ⟨rfl, c, stored, hc, hstored, rfl⟩))

/-- A patch that is to be held as columns is stored by way of its columns. -/
theorem compress_eq_of_toColumns {c : ColumnPatch} (htarget : p.schema.target = .columns)
    (hc : p.toColumns e = .ok c) (s : Sampling) :
    p.compress e s = (c.compress e s >>= fun stored => .ok (.columns stored.1, stored.2)) := by
  have hsettled : ¬ p.isSettled = true := fun h => target_ne_of_isSettled h htarget
  rw [compress, if_neg hsettled, htarget]
  show (p.toColumns e >>= fun c => _) = _
  rw [hc, ok_bind]
  rfl

/-- A patch that is to be a blob and is none yet is stored as one. -/
theorem exists_compress_blob (hb : p.schema.Built) (hp : p.WellFormed e) {codec : BlobCodec}
    (hregistered : e.blobCodec? = some codec) (hrestores : codec.Restores p.schema p.count)
    (htarget : p.schema.target = .blob) (hsettled : ¬ p.isSettled = true) :
    ∃ q, p.compress e s = .ok (.blob q, s) ∧ q.toPatchHeader = p.header
      ∧ ∃ raw raw', p.toRows e = .ok raw ∧ (Patch.blob q).toRows e = .ok raw'
        ∧ raw'.rows = raw.rows := by
  obtain ⟨raw, hraw, hlength⟩ := hp.exists_toRows hb
  have hschema : raw.schema = p.schema := schema_of_toRows hraw
  have hcount : raw.count = p.count := count_of_toRows hraw
  rw [← hschema, ← hcount] at hrestores hlength
  obtain ⟨q, hstore, hq, hback⟩ := exists_ofRows hregistered hrestores hlength
  refine ⟨q, ?_, hq.trans (header_of_toRows hraw), raw, _, hraw, hback, rfl⟩
  rw [compress, if_neg hsettled, htarget]
  exact bind_eq_ok_iff.2 ⟨codec, blobCodec_eq_ok_iff.2 hregistered,
    bind_eq_ok_iff.2 ⟨raw, hraw, bind_eq_ok_iff.2 ⟨q, hstore, rfl⟩⟩⟩

/-- A patch that is to be held as columns is stored as such, also if it is held so already. -/
theorem exists_compress_columns (hb : p.schema.Built) (hf : p.schema.isFilled = true)
    (hp : p.WellFormed e) (hz : e.deflate.Lossless) (hs : s.tallies.length = p.schema.slotCount)
    (hmem : ∀ d ∈ p.schema.dimensions, e.deflate.memory.grants (p.count * d.size) = true)
    (htarget : p.schema.target = .columns) :
    ∃ q s', p.compress e s = .ok (.columns q, s') ∧ q.toPatchHeader = p.header
      ∧ ∃ raw raw', p.toRows e = .ok raw ∧ (Patch.columns q).toRows e = .ok raw'
        ∧ raw'.rows = raw.rows := by
  obtain ⟨c, raws, raw, hcolumns, hsame, hholds, hraw, hwoven⟩ := hp.exists_toColumns hb
  have hschema : c.schema = p.schema := congrArg PatchHeader.schema hsame
  have hcount : c.count = p.count := congrArg PatchHeader.count hsame
  rw [← hschema] at hb hf hs hmem
  rw [← hcount] at hmem hwoven
  obtain ⟨q, s', hcompress⟩ := ColumnPatch.exists_compress hf hs hholds
  obtain ⟨hq, hholds'⟩ := hholds.of_compress hz hmem hcompress
  have hback := hholds'.toRows (by rw [hq]; exact hb)
  refine ⟨q, s', ?_, hq.trans hsame, raw, _, hraw, hback, ?_⟩
  · rw [compress_eq_of_toColumns htarget hcolumns, hcompress]
    rfl
  · -- both patches weave the same raw columns, as many rows of them
    show ColumnPatch.wovenRows q.count raws = raw.rows
    rw [hwoven, hq]

/-- A patch is compressed to the form that its schema asks for, with the same header and the
same rows. -/
theorem compress_preserves_rows (hb : p.schema.Built) (hf : p.schema.isFilled = true)
    (hp : p.WellFormed e) (hz : e.deflate.Lossless) (hs : s.tallies.length = p.schema.slotCount)
    (hmem : p.schema.target = .columns →
      ∀ d ∈ p.schema.dimensions, e.deflate.memory.grants (p.count * d.size) = true)
    (hcodec : p.schema.target = .blob → p.form ≠ .blob →
      ∃ codec, e.blobCodec? = some codec ∧ codec.Restores p.schema p.count) :
    ∃ q s', p.compress e s = .ok (q, s') ∧ q.form = p.schema.target ∧ q.header = p.header
      ∧ ∃ raw raw', p.toRows e = .ok raw ∧ q.toRows e = .ok raw' ∧ raw'.rows = raw.rows := by
  obtain ⟨raw, hraw, -⟩ := hp.exists_toRows hb
  by_cases hsettled : p.isSettled = true
  · -- the patch is returned as it is
    exact ⟨p, s, if_pos hsettled, form_eq_of_isSettled hsettled, rfl, raw, raw, hraw, hraw, rfl⟩
  rcases htarget : p.schema.target with - | - | -
  · -- to rows
    refine ⟨.rows raw, s, ?_, rfl, header_of_toRows hraw, raw, raw, hraw, rfl, rfl⟩
    rw [compress, if_neg hsettled, htarget]
    exact bind_eq_ok_iff.2 ⟨raw, hraw, rfl⟩
  · -- to a blob
    have hform : p.form ≠ .blob := by
      intro hform
      cases p with
      | rows p => cases hform
      | columns p => cases hform
      | blob p => exact hsettled (beq_iff_eq.2 htarget)
    obtain ⟨codec, hregistered, hrestores⟩ := hcodec htarget hform
    obtain ⟨q, hcompress, hheader, hrows⟩ :=
      exists_compress_blob hb hp hregistered hrestores htarget hsettled
    exact ⟨.blob q, s, hcompress, rfl, hheader, hrows⟩
  · -- to columns
    obtain ⟨q, s', hcompress, hheader, hrows⟩ :=
      exists_compress_columns hb hf hp hz hs (hmem htarget) htarget
    exact ⟨.columns q, s', hcompress, rfl, hheader, hrows⟩

/-- The columns of a patch are stored anew, each in a mode that it did not have. -/
theorem compress_specimen :
    ∃ q s', (Patch.columns .specimen).compress { deflate := Deflate.codec }
        ⟨20000, 5, [⟨9, 4, .sigbits⟩, ⟨7, 0, .deflate⟩, ⟨0, 0, .rle⟩, ⟨1, 1, .raw⟩]⟩ = .ok (q, s')
      ∧ q.form = .columns ∧ q.header = (Patch.columns .specimen).header
      ∧ ∃ raw raw', (Patch.columns .specimen).toRows { deflate := Deflate.codec } = .ok raw
        ∧ q.toRows { deflate := Deflate.codec } = .ok raw' ∧ raw'.rows = raw.rows :=
  compress_preserves_rows Schema.specimen_built (by decide)
    (wellFormed_columns_iff.2 ⟨_, ColumnPatch.specimen_holds⟩) Deflate.codec_lossless (by decide)
    (fun _ => by decide) (fun htarget => by cases htarget)

end Patch

end PointPatch
