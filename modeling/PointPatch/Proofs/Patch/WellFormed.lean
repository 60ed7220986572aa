/-
PointPatch/Proofs/Patch/WellFormed.lean

Patches that hold what they say.

A well-formed patch has, in whatever form, as many bytes of rows as its schema
and its number of points ask for.  Such a patch can be held as rows
(`WellFormed.exists_toRows`), and for one held as columns the rows are those
that the decoded columns are woven to (`Holds.toRows`).  The rows are there to
be used if memory has room for them as well (`uncompress_eq_ok_iff`).  What a
patch is held as rows by depends on no more of its header than schema and number
of points (`toRows_withHeader`).
-/
import PointPatch.Patch.Conversion
import PointPatch.Proofs.Patch.Room
import PointPatch.Proofs.Patch.Transposition
import PointPatch.Proofs.Stream.Stored

namespace PointPatch

/-! ### Columns -/

namespace Column

variable {z : ColumnCodec} {c raw : Column}

/-- A decoded column of the right length is what the column stores. -/
theorem stores_of_decode (h : c.decode z = .ok raw)
    (hlength : raw.payload.length = raw.count * raw.type.size) :
    c.Stores z raw.type raw.count raw.payload := by
  obtain ⟨bytes, hcontent, rfl⟩ := decode_eq_ok_iff.1 h
  exact ⟨rfl, rfl, hcontent, hlength⟩

/-- A decoded column is raw. -/
theorem mode_of_decode (h : c.decode z = .ok raw) : raw.mode = .raw := by
  obtain ⟨bytes, -, rfl⟩ := decode_eq_ok_iff.1 h
  rfl

end Column

namespace ColumnPatch

variable {z : ColumnCodec} {p q : ColumnPatch} {raws : List Column}

/-- The columns of a patch decode to some raw columns, which fit their dimensions. -/
structure Holds (z : ColumnCodec) (p : ColumnPatch) (raws : List Column) : Prop where
  decode : p.columns.Forall₂ (fun c raw => c.decode z = .ok raw) raws
  fits : p.schema.dimensions.Forall₂ (Fits p.count) raws

theorem Holds.length_of_mem (h : p.Holds z raws) {raw : Column} (hraw : raw ∈ raws) :
    raw.payload.length = raw.count * raw.type.size := by
  obtain ⟨d, -, htype, hcount, hlength⟩ := exists_of_mem_right h.fits hraw
  rw [hlength, hcount, htype, Dimension.size]

theorem exists_stores_iff {count : Nat} {d : Dimension} {c : Column} :
    (∃ bytes, c.Stores z d.type count bytes) ↔ ∃ raw, c.decode z = .ok raw ∧ Fits count d raw := by
  constructor
  · rintro ⟨bytes, h⟩
    exact ⟨_, h.decode, rfl, rfl, h.length_bytes⟩
  · rintro ⟨raw, hdecode, htype, hcount, hlength⟩
    have hstores := Column.stores_of_decode hdecode (by rw [hlength, hcount, Dimension.size, htype])
    rw [htype, hcount] at hstores
    exact ⟨raw.payload, hstores⟩

theorem checkLength_eq_ok_iff {count : Nat} {d : Dimension} {c : Column} :
    checkLength count d c = .ok () ↔ c.count = count ∧ c.payload.length = count * d.size := by
  rw [checkLength]
  split
  · rename_i h
    constructor
    · intro hok
      cases hok
    · rintro ⟨hcount, hlength⟩
      exact absurd h (not_or.2 ⟨not_not.2 hcount, not_not.2 hlength⟩)
  · rename_i h
    obtain ⟨hcount, hlength⟩ := not_or.1 h
    exact iff_of_true rfl ⟨not_not.1 hcount, not_not.1 hlength⟩

/-- Columns are put together to rows exactly if all of them decode, each to as many values as
there are points. -/
theorem toRows_eq_ok_iff {raw : RowPatch} :
    p.toRows z = .ok raw ↔
      ∃ raws, p.columns.Forall₂ (fun c raw => c.decode z = .ok raw) raws
        ∧ (∀ x ∈ p.schema.dimensions.zip raws,
            x.2.count = p.count ∧ x.2.payload.length = p.count * x.1.size)
        ∧ raw = RowPatch.ofHeader p.toPatchHeader (weave p.schema p.count raws).flatten := by
  rw [toRows, bind_eq_ok_iff]
  constructor
  · rintro ⟨q, hdecode, h⟩
    obtain ⟨raws, hraws, hq⟩ := bind_eq_ok_iff.1 hdecode
    cases hq
    obtain ⟨⟨⟩, hcheck, h⟩ := bind_eq_ok_iff.1 h
    cases h
    refine ⟨raws, mapM_eq_ok_iff.1 hraws, fun x hx => ?_, rfl⟩
    exact checkLength_eq_ok_iff.1 (forM_eq_ok_iff.1 hcheck x hx)
  · rintro ⟨raws, hraws, hcheck, rfl⟩
    refine ⟨{ p with columns := raws },
      bind_eq_ok_iff.2 ⟨raws, mapM_eq_ok_iff.2 hraws, rfl⟩, bind_eq_ok_iff.2 ⟨(), ?_, rfl⟩⟩
    exact forM_eq_ok_iff.2 fun x hx => checkLength_eq_ok_iff.2 (hcheck x hx)

/-- The rows of a patch are those that its decoded columns are woven to. -/
theorem Holds.toRows (hb : p.schema.Built) (h : p.Holds z raws) :
    p.toRows z = .ok (RowPatch.ofHeader p.toPatchHeader (wovenRows p.count raws)) := by
  rw [← flatten_weave hb h.fits]
  refine toRows_eq_ok_iff.2 ⟨raws, h.decode, fun x hx => ?_, rfl⟩
  exact (List.forall₂_zip h.fits hx).2

/-- The rows can be had in memory exactly if memory has a buffer for them. -/
theorem uncompress_eq_ok_iff {raw : RowPatch} :
    p.uncompress z = .ok raw ↔
      p.toRows z = .ok raw ∧ z.memory.grants (p.schema.size * p.count) = true := by
  constructor
  · intro h
    obtain ⟨raw', hraw, h⟩ := bind_eq_ok_iff.1 h
    obtain ⟨⟨⟩, hroom, h⟩ := bind_eq_ok_iff.1 h
    cases h
    exact ⟨hraw, RowPatch.checkRoom_eq_ok_iff.1 hroom⟩
  · rintro ⟨hraw, hroom⟩
    exact bind_eq_ok_iff.2 ⟨raw, hraw,
      bind_eq_ok_iff.2 ⟨(), RowPatch.checkRoom_eq_ok_iff.2 hroom, rfl⟩⟩

/-! ### A specimen -/

/-- The times of three points. -/
def specimenTimes : List UInt8 := [0, 0, 0, 0, 0, 0, 0, 0, 0, 0, 0, 0, 0, 0, 0xf0, 0x3f, 0, 0, 0, 0, 0, 0, 0, 0x40]

/-- Three points with a column in each mode.  The runs could be fewer, the elements with shared
bits share more, and a byte follows their stream. -/
def specimen : ColumnPatch where
  schema := .specimen
  count := 3
  columns :=
    [⟨.int32, 3, .raw, [1, 0, 0, 0, 2, 0, 0, 0, 3, 0, 0, 0]⟩,
     ⟨.int32, 3, .rle, [1, 5, 0, 0, 0, 2, 5, 0, 0, 0]⟩,
     ⟨.uint16, 3, .sigbits, [8, 0, 0, 1, 10, 11, 12, 0xff]⟩,
     ⟨.float64, 3, .deflate, Deflate.codec.pack 6 specimenTimes⟩]

/-- What the columns of `specimen` decode to. -/
def specimenRaw : List Column :=
  [⟨.int32, 3, .raw, [1, 0, 0, 0, 2, 0, 0, 0, 3, 0, 0, 0]⟩,
     ⟨.int32, 3, .raw, [5, 0, 0, 0, 5, 0, 0, 0, 5, 0, 0, 0]⟩,
     ⟨.uint16, 3, .raw, [10, 1, 11, 1, 12, 1]⟩,
     ⟨.float64, 3, .raw, specimenTimes⟩]

theorem specimen_holds : specimen.Holds Deflate.codec specimenRaw where
  decode := by
    have htimes : Column.decode Deflate.codec ⟨.float64, 3, .deflate, Deflate.codec.pack 6 specimenTimes⟩
        = .ok ⟨.float64, 3, .raw, specimenTimes⟩ :=
      Column.decode_eq_ok_iff.2 ⟨specimenTimes,
        Column.deflate_decode_pack (z := Deflate.codec) Deflate.codec_lossless 6 specimenTimes, rfl⟩
    exact .cons rfl (.cons (by decide) (.cons (by decide) (.cons htimes .nil)))
  fits := .cons ⟨rfl, rfl, rfl⟩ (.cons ⟨rfl, rfl, rfl⟩ (.cons ⟨rfl, rfl, rfl⟩ (.cons ⟨rfl, rfl, rfl⟩ .nil)))

end ColumnPatch

/-! ### Patches -/

namespace Patch

variable {e : Engine} {p : Patch} {raw : RowPatch}

/-- The patch holds what its schema and its number of points ask for: rows of the right length,
or a column of the right length for each dimension, in whatever mode, or a blob that the codec
gives rows of the right length for. -/
def WellFormed (e : Engine) : Patch → Prop
  | .rows p => p.rows.length = p.schema.size * p.count
  | .columns p => p.schema.dimensions.Forall₂
      (fun d c => ∃ bytes, c.Stores e.deflate d.type p.count bytes) p.columns
  | .blob p => ∃ codec rows, e.blobCodec? = some codec
      ∧ codec.decode p.schema p.blob (UInt32.ofNat p.count) = .ok rows
      ∧ rows.length = p.schema.size * p.count

theorem wellFormed_columns_iff {p : ColumnPatch} :
    (Patch.columns p).WellFormed e ↔ ∃ raws, p.Holds e.deflate raws := by
  have hstored : ∀ (d : Dimension) (c : Column), (∃ bytes, c.Stores e.deflate d.type p.count bytes) ↔
      ∃ raw, c.decode e.deflate = .ok raw ∧ ColumnPatch.Fits p.count d raw :=
    fun _ _ => ColumnPatch.exists_stores_iff
  show p.schema.dimensions.Forall₂ _ p.columns ↔ _
  simp only [hstored]
  rw [forall₂_exists_iff]
  exact exists_congr fun raws => ⟨fun h => ⟨h.1, h.2⟩, fun h => ⟨h.decode, h.fits⟩⟩

theorem blobCodec_eq_ok_iff {codec : BlobCodec} :
    e.blobCodec = .ok codec ↔ e.blobCodec? = some codec := by
  rw [Engine.blobCodec]
  cases e.blobCodec? <;> simp

/-- A blob is turned into rows exactly if there is a codec that gives rows of the right length
for it. -/
theorem toRows_blob_eq_ok_iff {p : BlobPatch} :
    (Patch.blob p).toRows e = .ok raw ↔
      ∃ codec rows, e.blobCodec? = some codec
        ∧ codec.decode p.schema p.blob (UInt32.ofNat p.count) = .ok rows
        ∧ rows.length = p.schema.size * p.count
        ∧ raw = RowPatch.ofHeader p.toPatchHeader rows := by
  show (e.blobCodec >>= fun codec => p.toRows codec) = _ ↔ _
  rw [bind_eq_ok_iff]
  constructor
  · rintro ⟨codec, hcodec, h⟩
    rw [BlobPatch.toRows] at h
    obtain ⟨rows, hrows, h⟩ := bind_eq_ok_iff.1 h
    obtain ⟨hlength, h⟩ := check_eq_ok_iff.1 h
    cases h
    exact ⟨codec, rows, blobCodec_eq_ok_iff.1 hcodec, hrows, not_not.1 hlength, rfl⟩
  · rintro ⟨codec, rows, hcodec, hrows, hlength, rfl⟩
    refine ⟨codec, blobCodec_eq_ok_iff.2 hcodec, bind_eq_ok_iff.2 ⟨rows, hrows, ?_⟩⟩
    exact check_eq_ok_iff.2 ⟨not_not.2 hlength, rfl⟩

/-! ### Rows of a patch -/

/-- The header goes along. -/
theorem header_of_toRows (h : p.toRows e = .ok raw) : raw.toPatchHeader = p.header := by
  cases p with
  | rows p =>
    cases h
    rfl
  | columns p =>
    obtain ⟨raws, -, -, rfl⟩ := ColumnPatch.toRows_eq_ok_iff.1 h
    rfl
  | blob p =>
    obtain ⟨codec, rows, -, -, -, rfl⟩ := toRows_blob_eq_ok_iff.1 h
    rfl

theorem schema_of_toRows (h : p.toRows e = .ok raw) : raw.schema = p.schema :=
  congrArg PatchHeader.schema (header_of_toRows h)

theorem count_of_toRows (h : p.toRows e = .ok raw) : raw.count = p.count :=
  congrArg PatchHeader.count (header_of_toRows h)

/-- The rows of a patch can be had in memory exactly if they can be had, and memory has a buffer for
those of columns. -/
theorem uncompress_eq_ok_iff : p.uncompress e = .ok raw ↔ p.toRows e = .ok raw
    ∧ (p.form = .columns → e.deflate.memory.grants (p.schema.size * p.count) = true) := by
  cases p with
  | rows p => exact (and_iff_left fun h => by cases h).symm
  | columns p =>
    exact ColumnPatch.uncompress_eq_ok_iff.trans
      (and_congr_right' ⟨fun hroom _ => hroom, fun hroom => hroom rfl⟩)
  | blob p => exact (and_iff_left fun h => by cases h).symm

/-- A well-formed patch can be held as rows, of the right length. -/
theorem WellFormed.exists_toRows (hb : p.schema.Built) (h : p.WellFormed e) :
    ∃ raw, p.toRows e = .ok raw ∧ raw.rows.length = p.schema.size * p.count := by
  cases p with
  | rows p => exact ⟨p, rfl, h⟩
  | columns p =>
    obtain ⟨raws, hholds⟩ := wellFormed_columns_iff.1 h
    exact ⟨_, hholds.toRows hb, ColumnPatch.length_wovenRows hholds.fits⟩
  | blob p =>
    obtain ⟨codec, rows, hcodec, hrows, hlength⟩ := h
    exact ⟨_, toRows_blob_eq_ok_iff.2 ⟨codec, rows, hcodec, hrows, hlength, rfl⟩, hlength⟩

theorem WellFormed.length_of_toRows (hb : p.schema.Built) (hp : p.WellFormed e)
    (h : p.toRows e = .ok raw) : raw.rows.length = p.schema.size * p.count := by
  obtain ⟨raw', hraw', hlength⟩ := hp.exists_toRows hb
  cases h.symm.trans hraw'
  exact hlength

theorem form_withHeader (h : PatchHeader) (p : Patch) : (p.withHeader h).form = p.form := by
  cases p <;> rfl

theorem header_withHeader (h : PatchHeader) (p : Patch) : (p.withHeader h).header = h := by
  cases p <;> rfl

/-- Bounds and summary of a patch have no part in what its rows are. -/
theorem toRows_withHeader (h : p.toRows e = .ok raw) (header : PatchHeader)
    (hschema : header.schema = p.schema) (hcount : header.count = p.count) :
    ∃ raw', (p.withHeader header).toRows e = .ok raw' ∧ raw'.rows = raw.rows := by
  cases p with
  | rows p =>
    cases h
    exact ⟨_, rfl, rfl⟩
  | columns p =>
    obtain ⟨raws, hdecode, hcheck, rfl⟩ := ColumnPatch.toRows_eq_ok_iff.1 h
    obtain ⟨schema, count, bounds, summary⟩ := header
    obtain rfl : schema = p.schema := hschema
    obtain rfl : count = p.count := hcount
    exact ⟨_, ColumnPatch.toRows_eq_ok_iff.2 ⟨raws, hdecode, hcheck, rfl⟩, rfl⟩
  | blob p =>
    obtain ⟨codec, rows, hcodec, hrows, hlength, rfl⟩ := toRows_blob_eq_ok_iff.1 h
    obtain ⟨schema, count, bounds, summary⟩ := header
    obtain rfl : schema = p.schema := hschema
    obtain rfl : count = p.count := hcount
    exact ⟨_, toRows_blob_eq_ok_iff.2 ⟨codec, rows, hcodec, hrows, hlength, rfl⟩, rfl⟩

end Patch

end PointPatch
