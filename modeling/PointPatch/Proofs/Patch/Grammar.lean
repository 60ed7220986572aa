/-
PointPatch/Proofs/Patch/Grammar.lean

Which messages are accepted.

The messages of a schema are described without the reader: for rows by the
number of bytes (`IsRowMessage`), for columns by one entry for each dimension,
each with a payload that its mode admits (`IsColumnMessage`), for blobs by what
the codec makes of them (`IsBlobMessage`).  The reader accepts exactly these
(`exists_ofWire_rows_iff`, `exists_ofWire_columns_iff`,
`exists_ofWire_blob_iff`), although it turns payloads around before it looks at
them, and decodes them only to compute the summary.  What it accepts holds what
it says (`wellFormed_of_ofWire`).
-/
import PointPatch.Proofs.Column.Validity
import PointPatch.Proofs.Patch.Message

namespace PointPatch

variable {e : Engine} {schema : Schema} {order : ByteOrder} {count : Nat}

/-! ### Columns -/

/-- Bytes that say the columns of some dimensions: for each dimension in order the tag of a mode,
the length of a payload, and a payload that the mode admits; and nothing behind the last. -/
inductive SaysColumns (z : ColumnCodec) (order : ByteOrder) (count : Nat) :
    List Dimension → List UInt8 → Prop
  | nil : SaysColumns z order count [] []
  | cons {d : Dimension} {ds : List Dimension} {mode : Mode} {payload rest : List UInt8} :
      payload.length < 256 ^ 4 → mode.Admits z order d.size count payload →
      SaysColumns z order count ds rest →
      SaysColumns z order count (d :: ds)
        (mode.tag :: (Word.toBytes order 4 payload.length ++ payload ++ rest))

namespace ColumnPatch

/-- The bytes that say columns are the entries of columns with admitted payloads. -/
theorem saysColumns_iff {z : ColumnCodec} {ds : List Dimension} {body : List UInt8} :
    SaysColumns z order count ds body ↔
      ∃ ws : List Column, ds.Forall₂ (fun d w => w.IsEntry d.type count
          ∧ w.mode.Admits z order d.size count w.payload) ws
        ∧ body = entries order ws := by
  constructor
  · intro h
    induction h with
    | nil => exact ⟨[], .nil, rfl⟩
    | @cons d ds mode payload rest hlength hadmits _ ih =>
      obtain ⟨ws, hws, rfl⟩ := ih
      have hraw : mode = .raw → payload.length = count * d.type.size := by
        rintro rfl
        exact hadmits
      exact ⟨⟨d.type, count, mode, payload⟩ :: ws,
        .cons ⟨⟨rfl, rfl, hlength, hraw⟩, hadmits⟩ hws, rfl⟩
  · rintro ⟨ws, hws, rfl⟩
    induction hws with
    | nil => exact .nil
    | @cons d w ds ws hw _ ih =>
      rw [entries, List.flatMap_cons, Column.entry, List.cons_append]
      exact .cons hw.1.length_lt hw.2 ih

/-- The payloads of a message are admitted exactly if all columns can be turned around and
decoded. -/
theorem forall₂_admits_iff (hz : e.deflate.Lossless) (hcount : count < 256 ^ 4)
    {ds : List Dimension} {ws : List Column}
    (hentries : ds.Forall₂ (fun d w => w.IsEntry d.type count) ws) :
    ds.Forall₂ (fun d w => w.mode.Admits e.deflate order d.size count w.payload) ws ↔
      ∃ cs : List Column,
        ws.Forall₂ (fun w c => w.toOrder e.deflate e.config.deflateLevel order = .ok c) cs
        ∧ ds.Forall₂ (fun d c => ∃ bytes, c.Stores e.deflate d.type count bytes) cs := by
  rw [← forall₂_exists_iff]
  have hcolumn : ∀ (d : Dimension) (w : Column), w.IsEntry d.type count →
      (w.mode.Admits e.deflate order d.size count w.payload ↔
        ∃ c, w.toOrder e.deflate e.config.deflateLevel order = .ok c
          ∧ ∃ bytes, c.Stores e.deflate d.type count bytes) := by
    rintro d ⟨type, count', mode, payload⟩ ⟨htype, hcount', -, -⟩
    obtain rfl : type = d.type := htype
    obtain rfl : count' = count := hcount'
    exact (Column.exists_stores_iff_admits hz hcount).symm
  constructor
  · exact fun h => (hentries.mp (fun d w hw h => (hcolumn d w hw).1 h)) h
  · exact fun h => (hentries.mp (fun d w hw h => (hcolumn d w hw).2 h)) h

/-- Columns that came out of entries have the types of the dimensions. -/
theorem types_of_entries {ds : List Dimension} {ws cs : List Column}
    (hentries : ds.Forall₂ (fun d w => w.IsEntry d.type count) ws)
    (hturns : ws.Forall₂
      (fun w c => w.toOrder e.deflate e.config.deflateLevel order = .ok c) cs) :
    ds.Forall₂ (fun d c => c.type = d.type) cs := by
  refine forall₂_comp ?_ hentries hturns
  intro d w c hentry hturn
  exact (Column.type_of_toOrder hturn).trans hentry.type_eq

/-- Columns of the right types that can be put together to rows store what the dimensions ask
for. -/
theorem wellFormed_of_toRows {p : ColumnPatch} {raw : RowPatch}
    (htypes : p.schema.dimensions.Forall₂ (fun d c => c.type = d.type) p.columns)
    (h : p.toRows e.deflate = .ok raw) : (Patch.columns p).WellFormed e := by
  obtain ⟨raws, hdecode, hcheck, -⟩ := toRows_eq_ok_iff.1 h
  have hfits : p.schema.dimensions.Forall₂ (fun d raw => raw.type = d.type) raws := by
    refine forall₂_comp ?_ htypes hdecode
    intro d c raw htype hraw
    obtain ⟨bytes, -, rfl⟩ := Column.decode_eq_ok_iff.1 hraw
    exact htype
  refine Patch.wellFormed_columns_iff.2 ⟨raws, hdecode, ?_⟩
  refine List.forall₂_iff_zip.2 ⟨hfits.length_eq, fun {d raw} hmem => ?_⟩
  exact ⟨List.forall₂_zip hfits hmem, hcheck (d, raw) hmem⟩

end ColumnPatch

namespace Patch

variable {p : Patch} {message : List UInt8}

/-! ### Messages -/

/-- The messages of a schema that hold rows: the opening and whole rows, none if rows have no
bytes. -/
def IsRowMessage (schema : Schema) (message : List UInt8) : Prop :=
  ∃ order rows, message = (Opening.mk order schema.pcid .rows).bytes ++ rows
    ∧ if schema.size = 0 then rows = [] else rows.length % schema.size = 0

/-- The messages of a schema that hold columns: the opening, the number of points, and the
columns. -/
def IsColumnMessage (z : ColumnCodec) (schema : Schema) (message : List UInt8) : Prop :=
  ∃ order count body, count < 256 ^ 4 ∧ SaysColumns z order count schema.dimensions body
    ∧ message = (Opening.mk order schema.pcid .columns).bytes ++ (Word.toBytes order 4 count ++ body)

/-- The messages of a schema that hold a blob: the opening, the number of points, and a blob that
the codec gives as many rows for. -/
def IsBlobMessage (e : Engine) (schema : Schema) (message : List UInt8) : Prop :=
  ∃ order count blob codec rows, count < 256 ^ 4 ∧ e.blobCodec? = some codec
    ∧ codec.decode schema blob (UInt32.ofNat count) = .ok rows
    ∧ rows.length = schema.size * count
    ∧ message = (Opening.mk order schema.pcid .blob).bytes ++ (Word.toBytes order 4 count ++ blob)

/-- Rows are read exactly from the messages that hold rows. -/
theorem exists_ofWire_rows_iff (hb : schema.Built) :
    (∃ p, ofWire e schema message = .ok p ∧ p.form = .rows) ↔ IsRowMessage schema message := by
  have hcount : ∀ rows : List UInt8, (∃ count, schema.countRows rows.length = .ok count) ↔
      if schema.size = 0 then rows = [] else rows.length % schema.size = 0 := by
    intro rows
    split
    · rename_i hsize
      rw [Schema.countRows, if_pos hsize]
      by_cases hnil : rows = [] <;> simp [hnil]
    · rename_i hsize
      rw [Schema.countRows, if_neg hsize]
      by_cases hmod : rows.length % schema.size = 0 <;> simp [hmod]
  constructor
  · rintro ⟨p, h, hform⟩
    obtain ⟨order, body, rfl, hsaid⟩ := ofWire_eq_ok_iff.1 h
    rw [Says, hform] at hsaid
    obtain ⟨q, hq, -⟩ := hsaid
    obtain ⟨count, hrows, -⟩ := (RowPatch.ofPayload_eq_ok_iff hb).1 hq
    exact ⟨order, body, by rw [hform], (hcount body).1 ⟨count, hrows⟩⟩
  · rintro ⟨order, rows, rfl, hwhole⟩
    obtain ⟨count, hrows⟩ := (hcount rows).2 hwhole
    have hread : RowPatch.ofPayload schema order rows = .ok _ :=
      (RowPatch.ofPayload_eq_ok_iff hb).2 ⟨count, hrows, rfl⟩
    exact ⟨.rows _, ofWire_eq_ok_iff.2 ⟨order, rows, rfl, _, hread, rfl⟩, rfl⟩

/-- Columns are read exactly from the messages that hold columns. -/
theorem exists_ofWire_columns_iff (hb : schema.Built) (hf : schema.isFilled = true)
    (hz : e.deflate.Lossless) :
    (∃ p, ofWire e schema message = .ok p ∧ p.form = .columns) ↔
      IsColumnMessage e.deflate schema message := by
  constructor
  · rintro ⟨p, h, hform⟩
    obtain ⟨order, body, rfl, hsaid⟩ := ofWire_eq_ok_iff.1 h
    rw [Says, hform] at hsaid
    obtain ⟨q, hq, hsummary⟩ := hsaid
    obtain ⟨count, ws, cs, hcount, hentries, hturns, hbody, -, rfl⟩ :=
      ColumnPatch.ofPayload_eq_ok_iff.1 hq
    obtain ⟨raw, hraw, -⟩ := summarise_eq_ok_iff.1 hsummary
    -- that there is a summary shows that all columns were decoded
    have hstores := ColumnPatch.wellFormed_of_toRows (p := { schema, count, columns := cs })
      (ColumnPatch.types_of_entries hentries hturns) hraw
    have hadmits := (ColumnPatch.forall₂_admits_iff hz hcount hentries).2 ⟨cs, hturns, hstores⟩
    refine ⟨order, count, ColumnPatch.entries order ws, hcount,
      ColumnPatch.saysColumns_iff.2 ⟨ws, forall₂_and_iff.2 ⟨hentries, hadmits⟩, rfl⟩, ?_⟩
    rw [hform]
    exact congrArg _ hbody
  · rintro ⟨order, count, body, hcount, hsaid, rfl⟩
    obtain ⟨ws, hws, rfl⟩ := ColumnPatch.saysColumns_iff.1 hsaid
    obtain ⟨hentries, hadmits⟩ := forall₂_and_iff.1 hws
    obtain ⟨cs, hturns, hstores⟩ := (ColumnPatch.forall₂_admits_iff hz hcount hentries).1 hadmits
    -- every column can be decoded, so the patch has rows and can be summarised
    let q : ColumnPatch := { schema, count, columns := cs }
    obtain ⟨raw, hraw, -⟩ := WellFormed.exists_toRows (p := .columns q) hb hstores
    have hslots : cs.length = schema.slotCount := by
      rw [← hstores.length_eq, Schema.length_dimensions hf]
    have hread : ColumnPatch.ofPayload e schema order
        ⟨Opening.size, Word.toBytes order 4 count ++ ColumnPatch.entries order ws⟩ = .ok q :=
      ColumnPatch.ofPayload_eq_ok_iff.2 ⟨count, ws, cs, hcount, hentries, hturns, rfl, hslots, rfl⟩
    have hsummary := summarise_eq_ok_iff.2 ⟨raw, hraw, rfl⟩
    exact ⟨(Patch.columns q).withSummaryOf raw.rows,
      ofWire_eq_ok_iff.2 ⟨order, _, rfl, q, hread, hsummary⟩,
      form_withSummaryOf _ (Patch.columns q)⟩

/-- A blob is read exactly from the messages that hold a blob. -/
theorem exists_ofWire_blob_iff :
    (∃ p, ofWire e schema message = .ok p ∧ p.form = .blob) ↔ IsBlobMessage e schema message := by
  constructor
  · rintro ⟨p, h, hform⟩
    obtain ⟨order, body, rfl, hsaid⟩ := ofWire_eq_ok_iff.1 h
    rw [Says, hform] at hsaid
    obtain ⟨q, hq, hsummary⟩ := hsaid
    obtain ⟨count, blob, hcount, hbody, rfl⟩ := BlobPatch.ofPayload_eq_ok_iff.1 hq
    obtain ⟨raw, hraw, -⟩ := summarise_eq_ok_iff.1 hsummary
    obtain ⟨codec, rows, hcodec, hrows, hlength, -⟩ := toRows_blob_eq_ok_iff.1 hraw
    refine ⟨order, count, blob, codec, rows, hcount, hcodec, hrows, hlength, ?_⟩
    rw [hform]
    exact congrArg _ hbody
  · rintro ⟨order, count, blob, codec, rows, hcount, hcodec, hrows, hlength, rfl⟩
    let q : BlobPatch := { schema, count, blob }
    have hraw : (Patch.blob q).toRows e = .ok (RowPatch.ofHeader q.toPatchHeader rows) :=
      toRows_blob_eq_ok_iff.2 ⟨codec, rows, hcodec, hrows, hlength, rfl⟩
    have hread : BlobPatch.ofPayload schema order
        ⟨Opening.size, Word.toBytes order 4 count ++ blob⟩ = .ok q :=
      BlobPatch.ofPayload_eq_ok_iff.2 ⟨count, blob, hcount, rfl, rfl⟩
    exact ⟨(Patch.blob q).withSummaryOf rows,
      ofWire_eq_ok_iff.2 ⟨order, _, rfl, q, hread, summarise_eq_ok_iff.2 ⟨_, hraw, rfl⟩⟩,
      form_withSummaryOf _ (Patch.blob q)⟩

/-- What has been read holds what its schema and its number of points ask for. -/
theorem wellFormed_of_ofWire (hb : schema.Built) (h : ofWire e schema message = .ok p) :
    p.schema = schema ∧ p.WellFormed e := by
  cases p with
  | rows p =>
    obtain ⟨order, body, -, q, hq, hp⟩ := ofWire_eq_ok_iff.1 h
    cases hp
    obtain ⟨count, hcount, rfl⟩ := (RowPatch.ofPayload_eq_ok_iff hb).1 hq
    refine ⟨rfl, ?_⟩
    show (schema.turnRows order body).length = schema.size * count
    rw [Schema.length_turnRows hb]
    exact (Schema.countRows_eq_ok_iff.1 hcount).1
  | columns p =>
    obtain ⟨order, body, -, q, hq, hsummary⟩ := ofWire_eq_ok_iff.1 h
    obtain ⟨count, ws, cs, -, hentries, hturns, -, -, rfl⟩ := ColumnPatch.ofPayload_eq_ok_iff.1 hq
    obtain ⟨raw, hraw, hp⟩ := summarise_eq_ok_iff.1 hsummary
    cases hp
    exact ⟨rfl, ColumnPatch.wellFormed_of_toRows (p := { schema, count, columns := cs })
      (ColumnPatch.types_of_entries hentries hturns) hraw⟩
  | blob p =>
    obtain ⟨order, body, -, q, hq, hsummary⟩ := ofWire_eq_ok_iff.1 h
    obtain ⟨count, blob, -, -, rfl⟩ := BlobPatch.ofPayload_eq_ok_iff.1 hq
    obtain ⟨raw, hraw, hp⟩ := summarise_eq_ok_iff.1 hsummary
    obtain ⟨codec, rows, hcodec, hrows, hlength, -⟩ := toRows_blob_eq_ok_iff.1 hraw
    cases hp
    exact ⟨rfl, codec, rows, hcodec, hrows, hlength⟩

/-! ### A specimen -/

/-- What the message of `ColumnPatch.specimen` says of its columns, most significant bytes
first. -/
def specimenEntries : List Column :=
  [⟨.int32, 3, .raw, [0, 0, 0, 1, 0, 0, 0, 2, 0, 0, 0, 3]⟩,
     ⟨.int32, 3, .rle, [1, 0, 0, 0, 5, 2, 0, 0, 0, 5]⟩,
     ⟨.uint16, 3, .sigbits, [0, 8, 1, 0, 10, 11, 12, 0xff]⟩,
     ⟨.float64, 3, .deflate,
      Deflate.codec.pack 6 (reverseChunks 8 ColumnPatch.specimenTimes)⟩]

/-- The message of `ColumnPatch.specimen`, most significant bytes first. -/
def specimenMessage : List UInt8 :=
  (Opening.mk .big 7 .columns).bytes
    ++ (Word.toBytes .big 4 3 ++ ColumnPatch.entries .big specimenEntries)

theorem isColumnMessage_specimen :
    IsColumnMessage Deflate.codec Schema.specimen specimenMessage := by
  have hruns : RunLength.IsRuns 4 3 [⟨1, [0, 0, 0, 5]⟩, ⟨2, [0, 0, 0, 5]⟩] :=
    ⟨by decide, by decide, by decide, by decide⟩
  have htimes : Mode.deflate.Admits Deflate.codec .big 8 3
      (Deflate.codec.pack 6 (reverseChunks 8 ColumnPatch.specimenTimes)) :=
    ⟨_, Deflate.codec_lossless 6 _ _, by decide⟩
  refine ⟨.big, 3, _, by decide, ColumnPatch.saysColumns_iff.2 ⟨specimenEntries, ?_, rfl⟩, rfl⟩
  refine .cons ⟨⟨rfl, rfl, by decide, by decide⟩, rfl⟩ ?_
  refine .cons ⟨⟨rfl, rfl, by decide, by decide⟩, _, hruns, rfl⟩ ?_
  refine .cons ⟨⟨rfl, rfl, by decide, by decide⟩, by decide, by decide, by decide⟩ ?_
  exact .cons ⟨⟨rfl, rfl, by decide, by decide⟩, htimes⟩ .nil

end Patch

end PointPatch
