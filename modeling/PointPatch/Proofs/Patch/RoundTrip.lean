/-
PointPatch/Proofs/Patch/RoundTrip.lean

From a patch to its message and back.

A well-formed patch that its message has room for can be written in either
byte order and read again (`ofWire_toWire`).  Form, number of points, modes
and rows come back; bounds and summary are those of the rows, whatever they
were before.  For columns the argument goes column by column: each is turned
around on its way out and again on its way in, and stores after two turns what
it stored before (`exists_turned_columns`).
-/
import PointPatch.Patch.Description
import PointPatch.Proofs.Patch.Message

namespace PointPatch

variable {e : Engine} {order : ByteOrder}

/-! ### Columns -/

namespace Column

variable {z : ColumnCodec} {level : Nat} {type : Interpretation} {count : Nat}
variable {bytes : List UInt8} {c w : Column}

theorem Stores.isEntry (h : c.Stores z type count bytes) (hturn : c.toOrder z level order = .ok w)
    (hlt : w.payload.length < 256 ^ 4) : w.IsEntry type count := by
  obtain ⟨rfl, rfl, hcontent, hlength⟩ := h
  refine isEntry_of_toOrder hturn (fun hmode => ?_) hlt
  rw [content, hmode] at hcontent
  cases hcontent
  exact hlength

end Column

namespace ColumnPatch

variable {p : ColumnPatch} {raws : List Column}

/-- The columns of a patch can be turned around twice, and then decode to what they decoded to
before. -/
theorem exists_turned_columns (hz : e.deflate.Lossless) (h : p.Holds e.deflate raws)
    (order : ByteOrder) :
    ∃ ws cs, p.columns.Forall₂ (fun c w => c.toOrder e.deflate e.config.deflateLevel order = .ok w) ws
      ∧ ws.Forall₂ (fun w c => w.toOrder e.deflate e.config.deflateLevel order = .ok c) cs
      ∧ cs.Forall₂ (fun c raw => c.decode e.deflate = .ok raw) raws := by
  have hturns : raws.Forall₂ (fun raw c => ∃ w,
      c.toOrder e.deflate e.config.deflateLevel order = .ok w
      ∧ ∃ c', w.toOrder e.deflate e.config.deflateLevel order = .ok c'
        ∧ c'.decode e.deflate = .ok raw) p.columns := by
    refine ((List.forall₂_and_left _ _).2 ⟨fun raw => h.length_of_mem, h.decode.flip⟩).imp ?_
    rintro raw c ⟨hlength, hdecode⟩
    have hstores := Column.stores_of_decode hdecode hlength
    obtain ⟨w, hw⟩ : ∃ w, c.toOrder e.deflate e.config.deflateLevel order = .ok w :=
      Column.exists_toOrder hstores.content_eq
    obtain ⟨c', hc', -, hstores'⟩ := hstores.toOrder_toOrder hz hw
    have hmode := Column.mode_of_decode hdecode
    obtain ⟨type, count, mode, payload⟩ := raw
    obtain rfl : mode = .raw := hmode
    exact ⟨w, hw, c', hc', hstores'.decode⟩
  obtain ⟨ws, hws, hback⟩ := forall₂_exists_iff.1 hturns
  obtain ⟨cs, hcs, hdecode⟩ := forall₂_exists_iff.1 hback
  exact ⟨ws, cs, hws, hcs, hdecode.flip⟩

theorem map_mode_of_turned {cs ws : List Column}
    (h : cs.Forall₂ (fun c w => c.toOrder e.deflate e.config.deflateLevel order = .ok w) ws) :
    ws.map Column.mode = cs.map Column.mode := by
  induction h with
  | nil => rfl
  | cons hturn _ ih => rw [List.map_cons, List.map_cons, Column.mode_of_toOrder hturn, ih]

/-- In machine order all columns go into a message as they are. -/
theorem eq_of_turned_machine {cs ws : List Column}
    (h : cs.Forall₂ (fun c w => c.toOrder e.deflate e.config.deflateLevel .machine = .ok w) ws) :
    ws = cs := by
  induction h with
  | nil => rfl
  | cons hturn _ ih =>
    cases hturn
    rw [ih]

end ColumnPatch

/-! ### Patches -/

namespace Patch

/-- The message has room for what it has to say: the number of points and, for columns, the
lengths of the payloads as they are written. -/
def IsWritable (e : Engine) : Patch → Prop
  | .rows _ => True
  | .columns p => p.count < 256 ^ 4 ∧ ∀ c ∈ p.columns, ∀ order w,
      c.toOrder e.deflate e.config.deflateLevel order = .ok w → w.payload.length < 256 ^ 4
  | .blob p => p.count < 256 ^ 4

/-- What of a patch comes back from its message: the form, the schema, the number of points, the
modes of the columns, and the rows, with the bounds and the summary that they have. -/
structure Returns (e : Engine) (p : Patch) (rows : List UInt8) (q : Patch) : Prop where
  form_eq : q.form = p.form
  schema_eq : q.schema = p.schema
  count_eq : q.count = p.count
  modes_eq : q.modes? = p.modes?
  rows_eq : ∃ raw, q.toRows e = .ok raw ∧ raw.rows = rows
  bounds_eq : q.bounds = .ofRows p.schema rows
  summary_eq : q.summary = Summary.compute p.schema rows

theorem modes?_withHeader (h : PatchHeader) (p : Patch) : (p.withHeader h).modes? = p.modes? := by
  cases p <;> rfl

/-- A patch whose rows have been summarised returns them. -/
theorem Returns.of_summarised {p q : Patch} {raw : RowPatch} (hform : q.form = p.form)
    (hschema : q.schema = p.schema) (hcount : q.count = p.count) (hmodes : q.modes? = p.modes?)
    (hraw : q.toRows e = .ok raw) : p.Returns e raw.rows (q.withSummaryOf raw.rows) where
  form_eq := (form_withSummaryOf _ q).trans hform
  schema_eq := by
    rw [schema, withSummaryOf, header_withHeader]
    exact hschema
  count_eq := by
    rw [count, withSummaryOf, header_withHeader]
    exact hcount
  modes_eq := (modes?_withHeader _ q).trans hmodes
  rows_eq := toRows_withSummaryOf hraw _
  bounds_eq := by rw [bounds, withSummaryOf, header_withHeader, hschema]
  summary_eq := by rw [summary, withSummaryOf, header_withHeader, hschema]

/-- A message that has been written is read by reading its body. -/
theorem exists_ofWire {p q : Patch} {body : List UInt8} (hbody : p.body e order = .ok body)
    (hform : q.form = p.form) (hsaid : Says e p.schema order body q) :
    ∃ message, p.toWire e order = .ok message ∧ ofWire e p.schema message = .ok q
      ∧ message.length = Opening.size + body.length := by
  refine ⟨(Opening.mk order p.schema.pcid p.form).bytes ++ body,
    toWire_eq_ok_iff.2 ⟨body, hbody, rfl⟩, ofWire_eq_ok_iff.2 ⟨order, body, ?_, hsaid⟩, ?_⟩
  · rw [hform]
  · rw [List.length_append, Opening.length_bytes]

theorem ofWire_toWire_rows {p : RowPatch} (hb : p.schema.Built) (hsize : 0 < p.schema.size)
    (hp : (Patch.rows p).WellFormed e) (order : ByteOrder) :
    ∃ message q, (Patch.rows p).toWire e order = .ok message
      ∧ ofWire e p.schema message = .ok q ∧ (Patch.rows p).Returns e p.rows q
      ∧ message.length = Opening.size + p.rows.length := by
  -- the rows are turned around twice
  have hread : RowPatch.ofPayload p.schema order (p.schema.turnRows order p.rows)
      = .ok (RowPatch.ofWhole p.schema p.count p.rows) := by
    refine (RowPatch.ofPayload_eq_ok_iff hb).2 ⟨p.count, ?_, ?_⟩
    · rw [Schema.length_turnRows hb]
      exact Schema.countRows_eq_ok_iff.2 ⟨hp, fun h => absurd h (Nat.ne_of_gt hsize)⟩
    · rw [Schema.turnRows_turnRows hb]
  obtain ⟨message, hmessage, hq, hlength⟩ := exists_ofWire (p := .rows p)
    (q := .rows (RowPatch.ofWhole p.schema p.count p.rows)) rfl rfl ⟨_, hread, rfl⟩
  rw [Schema.length_turnRows hb] at hlength
  exact ⟨message, _, hmessage, hq, ⟨rfl, rfl, rfl, rfl, ⟨_, rfl, rfl⟩, rfl, rfl⟩, hlength⟩

theorem ofWire_toWire_columns {p : ColumnPatch} {raws : List Column} (hb : p.schema.Built)
    (hf : p.schema.isFilled = true) (hz : e.deflate.Lossless) (hp : p.Holds e.deflate raws)
    (hw : (Patch.columns p).IsWritable e) (order : ByteOrder) :
    ∃ message q, (Patch.columns p).toWire e order = .ok message
      ∧ ofWire e p.schema message = .ok q
      ∧ (Patch.columns p).Returns e (ColumnPatch.wovenRows p.count raws) q
      ∧ (order = .machine → message.length = Opening.size + p.payloadSize) := by
  obtain ⟨ws, cs, hout, hin, hdecode⟩ := ColumnPatch.exists_turned_columns hz hp order
  obtain ⟨hcount, hlengths⟩ := hw
  -- the turned columns are entries, one for each dimension
  have hstores := wellFormed_columns_iff.2 ⟨raws, hp⟩
  have hlong : p.columns.Forall₂ (fun c w =>
      c.toOrder e.deflate e.config.deflateLevel order = .ok w ∧ w.payload.length < 256 ^ 4) ws :=
    ((List.forall₂_and_left _ _).2 ⟨fun c hc => hc, hout⟩).imp
      fun c w h => ⟨h.2, hlengths c h.1 order w h.2⟩
  have hentries : p.schema.dimensions.Forall₂ (fun d w => w.IsEntry d.type p.count) ws := by
    refine forall₂_comp ?_ hstores hlong
    rintro d c w ⟨bytes, hstored⟩ ⟨hturn, hlt⟩
    exact hstored.isEntry hturn hlt
  -- what is read back, before it is summarised
  let q : ColumnPatch := { schema := p.schema, count := p.count, columns := cs }
  have hholds : q.Holds e.deflate raws := ⟨hdecode, hp.fits⟩
  have hrows : q.toRows e.deflate = .ok (RowPatch.ofHeader q.toPatchHeader
      (ColumnPatch.wovenRows p.count raws)) := hholds.toRows hb
  have hslots : cs.length = p.schema.slotCount := by
    rw [hdecode.length_eq, ← hp.fits.length_eq, Schema.length_dimensions hf]
  have hbody : (Patch.columns p).body e order
      = .ok (Word.toBytes order 4 p.count ++ ColumnPatch.entries order ws) :=
    ColumnPatch.payload_eq_ok_iff.2 ⟨ws, hout, rfl⟩
  have hread : ColumnPatch.ofPayload e p.schema order
      ⟨Opening.size, Word.toBytes order 4 p.count ++ ColumnPatch.entries order ws⟩ = .ok q :=
    ColumnPatch.ofPayload_eq_ok_iff.2 ⟨p.count, ws, cs, hcount, hentries, hin, rfl, hslots, rfl⟩
  have hsummary := summarise_eq_ok_iff.2 ⟨_, (show (Patch.columns q).toRows e = _ from hrows), rfl⟩
  have hmodes : (Patch.columns q).modes? = (Patch.columns p).modes? := by
    show some (cs.map Column.mode) = some (p.columns.map Column.mode)
    rw [ColumnPatch.map_mode_of_turned hin, ColumnPatch.map_mode_of_turned hout]
  obtain ⟨message, hmessage, hq, hlength⟩ := exists_ofWire (p := .columns p) hbody
    (form_withSummaryOf _ (Patch.columns q)) ⟨q, hread, hsummary⟩
  refine ⟨message, _, hmessage, hq,
    Returns.of_summarised (p := .columns p) (q := .columns q) rfl rfl rfl hmodes hrows, ?_⟩
  -- in machine order the entries are the columns themselves
  rintro rfl
  rw [hlength, List.length_append, Word.length_toBytes, ColumnPatch.length_entries,
    ColumnPatch.eq_of_turned_machine hout]
  rfl

theorem ofWire_toWire_blob {p : BlobPatch} {rows : RowPatch}
    (hrows : (Patch.blob p).toRows e = .ok rows) (hw : (Patch.blob p).IsWritable e)
    (order : ByteOrder) :
    ∃ message q, (Patch.blob p).toWire e order = .ok message
      ∧ ofWire e p.schema message = .ok q ∧ (Patch.blob p).Returns e rows.rows q
      ∧ message.length = Opening.size + p.payloadSize := by
  let q : BlobPatch := { schema := p.schema, count := p.count, blob := p.blob }
  obtain ⟨raw, hraw, hsame⟩ := toRows_withHeader hrows
    { schema := p.schema, count := p.count } rfl rfl
  have hread : BlobPatch.ofPayload p.schema order
      ⟨Opening.size, Word.toBytes order 4 p.count ++ p.blob⟩ = .ok q :=
    BlobPatch.ofPayload_eq_ok_iff.2 ⟨p.count, p.blob, hw, rfl, rfl⟩
  have hsummary := summarise_eq_ok_iff.2 ⟨raw, (show (Patch.blob q).toRows e = _ from hraw), rfl⟩
  obtain ⟨message, hmessage, hq, hlength⟩ := exists_ofWire (p := .blob p) rfl
    (form_withSummaryOf _ (Patch.blob q)) ⟨q, hread, hsummary⟩
  have hreturns := Returns.of_summarised (p := .blob p) (q := .blob q) rfl rfl rfl rfl hraw
  rw [hsame] at hq hreturns
  refine ⟨message, _, hmessage, hq, hreturns, ?_⟩
  rw [hlength, List.length_append, Word.length_toBytes]
  rfl

theorem specimen_isWritable : (Patch.columns .specimen).IsWritable { deflate := Deflate.codec } := by
  refine ⟨by decide, fun c hc order w hw => ?_⟩
  rcases List.mem_cons.1 hc with rfl | hc
  · rw [Column.length_payload_of_toOrder (by intro h; cases h) hw]
    decide
  rcases List.mem_cons.1 hc with rfl | hc
  · rw [Column.length_payload_of_toOrder (by intro h; cases h) hw]
    decide
  rcases List.mem_cons.1 hc with rfl | hc
  · rw [Column.length_payload_of_toOrder (by intro h; cases h) hw]
    decide
  obtain rfl := List.mem_singleton.1 hc
  cases order with
  | little =>
    cases hw
    decide
  | big =>
    rw [Column.toOrder_of_needsFlip rfl] at hw
    obtain ⟨content, hcontent, rfl⟩ := (Column.flip_deflate_eq_ok_iff rfl).1 hw
    have hpack := Column.deflate_decode_pack (z := Deflate.codec) Deflate.codec_lossless 6
      ColumnPatch.specimenTimes
    cases hcontent.symm.trans hpack
    decide

/-- A well-formed patch is the same after it has been written in either byte order and read
again: the form, the number of points, the modes and the rows come back, and bounds and summary
are those of the rows.  In machine order the message is as long as the patch says. -/
theorem ofWire_toWire {p : Patch} (hb : p.schema.Built) (hf : p.schema.isFilled = true)
    (hsize : 0 < p.schema.size) (hz : e.deflate.Lossless) (hp : p.WellFormed e)
    (hw : p.IsWritable e) :
    ∃ raw, p.toRows e = .ok raw ∧ ∀ order, ∃ message q, p.toWire e order = .ok message
      ∧ ofWire e p.schema message = .ok q ∧ p.Returns e raw.rows q
      ∧ (order = .machine → message.length = p.wireSize) := by
  cases p with
  | rows p =>
    refine ⟨p, rfl, fun order => ?_⟩
    obtain ⟨message, q, hmessage, hq, hreturns, hlength⟩ := ofWire_toWire_rows hb hsize hp order
    exact ⟨message, q, hmessage, hq, hreturns, fun _ => hlength⟩
  | columns p =>
    obtain ⟨raws, hholds⟩ := wellFormed_columns_iff.1 hp
    refine ⟨_, hholds.toRows hb, fun order => ?_⟩
    exact ofWire_toWire_columns hb hf hz hholds hw order
  | blob p =>
    obtain ⟨raw, hraw, -⟩ := hp.exists_toRows hb
    refine ⟨raw, hraw, fun order => ?_⟩
    obtain ⟨message, q, hmessage, hq, hreturns, hlength⟩ := ofWire_toWire_blob hraw hw order
    exact ⟨message, q, hmessage, hq, hreturns, fun _ => hlength⟩

/-- A patch with a column in each mode returns. -/
theorem ofWire_toWire_specimen :
    ∃ raw, (Patch.columns .specimen).toRows { deflate := Deflate.codec } = .ok raw ∧ ∀ order,
      ∃ message q, (Patch.columns .specimen).toWire { deflate := Deflate.codec } order = .ok message
        ∧ ofWire { deflate := Deflate.codec } .specimen message = .ok q
        ∧ (Patch.columns .specimen).Returns { deflate := Deflate.codec } raw.rows q
        ∧ (order = .machine → message.length = (Patch.columns .specimen).wireSize) :=
  ofWire_toWire Schema.specimen_built (by decide) (by decide) Deflate.codec_lossless
    (wellFormed_columns_iff.2 ⟨_, ColumnPatch.specimen_holds⟩) specimen_isWritable

end Patch

end PointPatch
