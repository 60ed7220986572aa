/-
PointPatch/Proofs/Patch/Reencoding.lean

From a message to its patch and back.

Whatever has been read of a message is written again as it stood there, in the
byte order of the message (`toWire_ofWire`).  That holds of every message that
is accepted, not only of those that are written: payloads are turned around in
place, so that odd ones come back too.  What cannot come back is a stream that
had to be unpacked and packed again.  The two messages then agree but for such
streams, which have the same content, and for their lengths
(`Column.AgreesWith`).
-/
import PointPatch.Proofs.Patch.Grammar

namespace PointPatch

variable {e : Engine} {schema : Schema} {order : ByteOrder} {message : List UInt8}

/-! ### Columns -/

namespace Column

variable {z : ColumnCodec} {level : Nat} {c w : Column}

/-- Two columns agree, but for a stream of elements of several bytes: that may be another one of
the same content. -/
def AgreesWith (z : ColumnCodec) (w w' : Column) : Prop :=
  w' = w ∨ (w.mode = .deflate ∧ 1 < w.type.size ∧ w' = { w with payload := w'.payload }
    ∧ ∃ content, Deflate.decode z w.rawLength w.payload = .ok content
      ∧ Deflate.decode z w.rawLength w'.payload = .ok content)

/-- A column that came out of a message goes back as it stood there, unless its stream was packed
again. -/
theorem exists_toOrder_agreesWith (hz : z.Lossless) (h : w.toOrder z level order = .ok c) :
    ∃ w', c.toOrder z level order = .ok w' ∧ AgreesWith z w w' := by
  by_cases hexact : w.TurnsExactly order
  · -- turned in place
    exact ⟨w, toOrder_toOrder hexact h, .inl rfl⟩
  · -- packed again
    obtain ⟨hmode, hflip⟩ := Classical.not_imp.1 hexact
    have hflip := Bool.eq_true_of_not_eq_false hflip
    obtain ⟨content, hcontent, hback, hagain⟩ := exists_toOrder_deflate hz hmode hflip h level
    have hwide : 1 < w.type.size := by
      rw [needsFlip, Bool.and_eq_true] at hflip
      exact of_decide_eq_true hflip.2
    exact ⟨_, hback, .inr ⟨hmode, hwide, rfl, content, hcontent, hagain⟩⟩

end Column

/-! ### Patches -/

namespace Patch

variable {p : Patch}

/-- No stream of the patch has to be packed again for a message of the given order: the order is
that of the machine, or no column of elements of several bytes is stored as a stream. -/
def KeepsStreams (order : ByteOrder) : Patch → Prop
  | .columns p => order = .machine ∨ ∀ c ∈ p.columns, c.mode = .deflate → c.type.size ≤ 1
  | _ => True

theorem KeepsStreams.turnsExactly {p : ColumnPatch} (h : (Patch.columns p).KeepsStreams order)
    {c : Column} (hc : c ∈ p.columns) : c.TurnsExactly order :=
  Column.turnsExactly_of_narrow fun hmode => h.imp_right fun hnarrow => hnarrow c hc hmode

/-- The messages of two lists of columns for one patch: an opening, the number of points, and an
entry for each column. -/
def columnMessage (o : Opening) (count : Nat) (ws : List Column) : List UInt8 :=
  o.bytes ++ (Word.toBytes o.order 4 count ++ ColumnPatch.entries o.order ws)

/-- What the patch of a message says of the message, for a patch held as columns. -/
theorem exists_entries_of_ofWire {p : ColumnPatch} (h : ofWire e schema message = .ok (.columns p)) :
    ∃ order ws, message = columnMessage ⟨order, schema.pcid, .columns⟩ p.count ws
      ∧ p.schema = schema ∧ p.count < 256 ^ 4
      ∧ schema.dimensions.Forall₂ (fun d w => w.IsEntry d.type p.count) ws
      ∧ ws.Forall₂ (fun w c => w.toOrder e.deflate e.config.deflateLevel order = .ok c)
          p.columns := by
  obtain ⟨order, body, rfl, q, hq, hsummary⟩ := ofWire_eq_ok_iff.1 h
  obtain ⟨count, ws, cs, hcount, hentries, hturns, hbody, -, rfl⟩ :=
    ColumnPatch.ofPayload_eq_ok_iff.1 hq
  obtain ⟨raw, -, hp⟩ := summarise_eq_ok_iff.1 hsummary
  cases hp
  refine ⟨order, ws, ?_, rfl, hcount, hentries, hturns⟩
  rw [columnMessage]
  exact congrArg _ hbody

/-- Writing a patch held as columns writes an entry for each column, turned around. -/
theorem toWire_columns {p : ColumnPatch} {ws : List Column}
    (h : p.columns.Forall₂ (fun c w => c.toOrder e.deflate e.config.deflateLevel order = .ok w) ws) :
    (Patch.columns p).toWire e order
      = .ok (columnMessage ⟨order, p.schema.pcid, .columns⟩ p.count ws) :=
  toWire_eq_ok_iff.2 ⟨_, ColumnPatch.payload_eq_ok_iff.2 ⟨ws, h, rfl⟩, rfl⟩

/-- A message that has been read as a patch is written by this patch, in the byte order of the
message: exactly, unless a stream has to be packed again; and for a patch held as columns in any
case with columns that agree with those of the message. -/
theorem toWire_ofWire (hb : schema.Built) (h : ofWire e schema message = .ok p) :
    ∃ order, message.head? = some order.flag
      ∧ (p.KeepsStreams order → p.toWire e order = .ok message)
      ∧ (e.deflate.Lossless → ∀ c, p = .columns c → ∃ ws ws',
          schema.dimensions.Forall₂ (fun d w => w.IsEntry d.type c.count) ws
          ∧ message = columnMessage ⟨order, schema.pcid, .columns⟩ c.count ws
          ∧ p.toWire e order = .ok (columnMessage ⟨order, schema.pcid, .columns⟩ c.count ws')
          ∧ ws.Forall₂ (Column.AgreesWith e.deflate) ws') := by
  cases p with
  | rows p =>
    obtain ⟨order, body, rfl, q, hq, hp⟩ := ofWire_eq_ok_iff.1 h
    cases hp
    obtain ⟨count, -, rfl⟩ := (RowPatch.ofPayload_eq_ok_iff hb).1 hq
    refine ⟨order, rfl, fun _ => toWire_eq_ok_iff.2 ⟨body, ?_, rfl⟩, fun _ c hc => by cases hc⟩
    exact congrArg Except.ok (Schema.turnRows_turnRows hb body)
  | columns p =>
    obtain ⟨order, ws, rfl, rfl, -, hentries, hturns⟩ := exists_entries_of_ofWire h
    refine ⟨order, rfl, fun hkeeps => toWire_columns ?_, fun hz c hc => ?_⟩
    · -- each column is turned back in place
      refine ((List.forall₂_and_left _ _).2 ⟨fun c hc => hc, hturns.flip⟩).imp ?_
      rintro c w ⟨hc, hturn⟩
      have hexact : w.TurnsExactly order := by
        intro hmode
        rw [← Column.needsFlip_of_toOrder hturn]
        exact hkeeps.turnsExactly hc ((Column.mode_of_toOrder hturn).trans hmode)
      exact Column.toOrder_toOrder hexact hturn
    · -- streams may be packed again
      cases hc
      have hagain := hturns.imp fun w c hturn => Column.exists_toOrder_agreesWith hz hturn
      obtain ⟨ws', hws', hagree⟩ := forall₂_exists_iff.1 hagain
      exact ⟨ws, ws', hentries, rfl, toWire_columns hws', hagree⟩
  | blob p =>
    obtain ⟨order, body, rfl, q, hq, hsummary⟩ := ofWire_eq_ok_iff.1 h
    obtain ⟨count, blob, -, hbody, rfl⟩ := BlobPatch.ofPayload_eq_ok_iff.1 hq
    obtain ⟨raw, -, hp⟩ := summarise_eq_ok_iff.1 hsummary
    cases hp
    refine ⟨order, rfl, fun _ => toWire_eq_ok_iff.2 ⟨body, ?_, rfl⟩, fun _ c hc => by cases hc⟩
    exact congrArg Except.ok hbody.symm

/-- A message with a column in each mode, most significant bytes first, is written again with
columns that agree with those it had. -/
theorem toWire_ofWire_specimen :
    ∃ c ws ws', ofWire { deflate := Deflate.codec } .specimen specimenMessage = .ok (.columns c)
      ∧ specimenMessage = columnMessage ⟨.big, 7, .columns⟩ c.count ws
      ∧ (Patch.columns c).toWire { deflate := Deflate.codec } .big
        = .ok (columnMessage ⟨.big, 7, .columns⟩ c.count ws')
      ∧ ws.Forall₂ (Column.AgreesWith Deflate.codec) ws' := by
  obtain ⟨p, hp, hform⟩ := (exists_ofWire_columns_iff (e := { deflate := Deflate.codec })
    Schema.specimen_built (by decide) Deflate.codec_lossless).2 isColumnMessage_specimen
  obtain ⟨order, hflag, -, hagain⟩ := toWire_ofWire Schema.specimen_built hp
  cases p with
  | rows p => cases hform
  | blob p => cases hform
  | columns c =>
    obtain ⟨ws, ws', -, hmessage, hwire, hagree⟩ := hagain Deflate.codec_lossless c rfl
    cases order with
    | little => cases hflag
    | big => exact ⟨c, ws, ws', hp, hmessage, hwire, hagree⟩

end Patch

end PointPatch
