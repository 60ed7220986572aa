/-
PointPatch/Proofs/Patch/Acceptance.lean

Reading a message that anyone may have written.

The messages that are accepted are those of the grammar, and no others; what
has been accepted can be used without further checks (`IsUsable`); and a
machine that reads a message never stops (`ofWire_accepts`).  The one thing
that a machine refuses over and above are columns whose rows it has no room
for.
-/
import PointPatch.Proofs.Machine.Patch

namespace PointPatch

variable {e : Engine} {schema : Schema} {message : List UInt8}

/-- Every point that a patch counts is one of its rows. -/
theorem RowPatch.point_eq_ok {p : RowPatch} (h : p.rows.length = p.schema.size * p.count) {i : Nat}
    (hi : i < p.count) :
    p.point i = .ok { schema := p.schema
                      data := slice (i * p.schema.size) p.schema.size p.rows
                      isView := true } := by
  have hle : (i + 1) * p.schema.size ≤ p.rows.length := by
    rw [h, Nat.mul_comm p.schema.size]
    exact Nat.mul_le_mul_right _ hi
  have hlength : (slice (i * p.schema.size) p.schema.size p.rows).length = p.schema.size := by
    rw [Nat.succ_mul] at hle
    exact length_slice hle
  rw [point, if_neg (Nat.not_le.2 hi), if_neg (Nat.not_lt.2 hle), Point.view,
    if_neg (not_not_intro hlength)]

namespace Patch

variable {p q : Patch}

/-- What can be done with a patch of a message: the message tells the form and, beforehand, the
schema, the rows can be had, bounds and summary are those of the rows, and every point can be
looked at. -/
structure IsUsable (e : Engine) (schema : Schema) (message : List UInt8) (p : Patch) : Prop where
  exists_opening : ∃ order body, message = (Opening.mk order schema.pcid p.form).bytes ++ body
  schemaId_eq : Opening.schemaId message = .ok schema.pcid
  schema_eq : p.schema = schema
  wellFormed : p.WellFormed e
  exists_rows : ∃ raw, p.toRows e = .ok raw ∧ raw.rows.length = schema.size * p.count
    ∧ p.bounds = .ofRows schema raw.rows ∧ p.summary = Summary.compute schema raw.rows
    ∧ ∀ i < p.count, raw.point i = .ok { schema
                                         data := slice (i * schema.size) schema.size raw.rows
                                         isView := true }

/-- The bounds and the summary that are computed anew are those of the rows. -/
theorem exists_rows_of_summarise (h : q.summarise e = .ok p) :
    ∃ raw, p.toRows e = .ok raw ∧ p.bounds = .ofRows p.schema raw.rows
      ∧ p.summary = Summary.compute p.schema raw.rows := by
  obtain ⟨raw, hraw, rfl⟩ := summarise_eq_ok_iff.1 h
  obtain ⟨raw', hraw', hrows⟩ := toRows_withSummaryOf hraw raw.rows
  refine ⟨raw', hraw', ?_, ?_⟩
  · rw [hrows, bounds, Patch.schema, withSummaryOf, header_withHeader]
    rfl
  · rw [hrows, summary, Patch.schema, withSummaryOf, header_withHeader]
    rfl

theorem exists_rows_of_ofWire (hb : schema.Built) (h : ofWire e schema message = .ok p) :
    ∃ raw, p.toRows e = .ok raw ∧ p.bounds = .ofRows p.schema raw.rows
      ∧ p.summary = Summary.compute p.schema raw.rows := by
  cases p with
  | rows p =>
    obtain ⟨order, body, -, q, hq, hp⟩ := ofWire_eq_ok_iff.1 h
    cases hp
    obtain ⟨count, -, rfl⟩ := (RowPatch.ofPayload_eq_ok_iff hb).1 hq
    -- rows are summarised as they are read
    exact ⟨_, rfl, rfl, rfl⟩
  | columns p =>
    obtain ⟨order, body, -, q, -, hsummary⟩ := ofWire_eq_ok_iff.1 h
    exact exists_rows_of_summarise hsummary
  | blob p =>
    obtain ⟨order, body, -, q, -, hsummary⟩ := ofWire_eq_ok_iff.1 h
    exact exists_rows_of_summarise hsummary

/-- What has been accepted can be used. -/
theorem isUsable_of_ofWire (hb : schema.Built) (h : ofWire e schema message = .ok p) :
    IsUsable e schema message p := by
  obtain ⟨rfl, hwell⟩ := wellFormed_of_ofWire hb h
  obtain ⟨raw, hraw, hbounds, hsummary⟩ := exists_rows_of_ofWire hb h
  have hlength := hwell.length_of_toRows hb hraw
  have hschema := schema_of_toRows hraw
  have hcount := count_of_toRows hraw
  obtain ⟨order, body, rfl, -⟩ := ofWire_eq_ok_iff.1 h
  have hid : Opening.schemaId ((Opening.mk order p.schema.pcid p.form).bytes ++ body)
      = .ok p.schema.pcid :=
    Opening.schemaId_eq_ok_iff.2 ⟨order, _, List.append_assoc _ _ _⟩
  refine ⟨⟨order, body, rfl⟩, hid, rfl, hwell, raw, hraw, hlength, hbounds, hsummary, ?_⟩
  intro i hi
  have hpoint := RowPatch.point_eq_ok (p := raw) (by rw [hschema, hcount, hlength])
    (by rw [hcount]; exact hi)
  rwa [hschema] at hpoint

/-- Of all byte strings, those are accepted that say columns, or whole rows, or a blob that the
codec can read; what is accepted can be used; and no byte string stops a machine. -/
theorem ofWire_accepts (hb : schema.Built) (hf : schema.isFilled = true)
    (hz : e.deflate.Lossless) :
    ((∃ p, ofWire e schema message = .ok p ∧ p.form = .columns) ↔
        IsColumnMessage e.deflate schema message)
      ∧ ((∃ p, ofWire e schema message = .ok p ∧ p.form = .rows) ↔ IsRowMessage schema message)
      ∧ ((∃ p, ofWire e schema message = .ok p ∧ p.form = .blob) ↔ IsBlobMessage e schema message)
      ∧ (∀ p, ofWire e schema message = .ok p → IsUsable e schema message p)
      ∧ (schema.size < Machine.wordLimit → message.length < Machine.wordLimit →
        (∀ codec, e.blobCodec? = some codec → codec.Addressable) →
        Machine.ofWire e schema message
          = Machine.lift (ofWire e schema message >>= Machine.withinMemory e.deflate.memory)) :=
  ⟨exists_ofWire_columns_iff hb hf hz, exists_ofWire_rows_iff hb, exists_ofWire_blob_iff,
    fun _ h => isUsable_of_ofWire hb h, fun hsize hmessage => Machine.ofWire_eq hb hsize hmessage⟩

/-- A message with a column in each mode, most significant bytes first, is accepted, can be used
and does not stop a machine. -/
theorem ofWire_accepts_specimen :
    let e : Engine :=
      { deflate := Deflate.codec, blobCodec? := some (BlobCodec.ofStream Zstandard.codec 3) }
    (∃ p, ofWire e .specimen specimenMessage = .ok p ∧ p.form = .columns
        ∧ IsUsable e .specimen specimenMessage p)
      ∧ Machine.ofWire e .specimen specimenMessage
        = Machine.lift
          (ofWire e .specimen specimenMessage >>= Machine.withinMemory e.deflate.memory) := by
  intro e
  obtain ⟨hcolumns, -, -, husable, hmachine⟩ :=
    @ofWire_accepts e .specimen specimenMessage Schema.specimen_built (by decide)
      Deflate.codec_lossless
  obtain ⟨p, hp, hform⟩ := hcolumns.2 isColumnMessage_specimen
  refine ⟨⟨p, hp, hform, husable p hp⟩, hmachine (by decide) (by decide) ?_⟩
  rintro codec ⟨⟩
  exact BlobCodec.addressable_ofStream Zstandard.codec 3

end Patch

end PointPatch
