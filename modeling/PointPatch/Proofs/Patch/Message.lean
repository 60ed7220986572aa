/-
PointPatch/Proofs/Patch/Message.lean

Messages of patches, part by part.

A message is read as a patch exactly if it is the opening of this patch and
goes on with a body that says it (`ofWire_eq_ok_iff`); what a body says is
different for each form (`Says`).  Bounds and summary of a patch that has been
read are those of its rows (`summarise_eq_ok_iff`).
-/
import PointPatch.Patch.Wire
import PointPatch.Proofs.Column.Message
import PointPatch.Proofs.Patch.WellFormed

namespace PointPatch

variable {e : Engine} {schema : Schema} {order : ByteOrder}

/-! ### Rows -/

/-- Rows on their way into, or out of, a message of the given order. -/
def Schema.turnRows (s : Schema) (order : ByteOrder) (rows : List UInt8) : List UInt8 :=
  if order.isForeign then s.flipRows rows else rows

theorem Schema.length_turnRows (hb : schema.Built) (rows : List UInt8) :
    (schema.turnRows order rows).length = rows.length := by
  rw [turnRows]
  split
  · exact length_flipRows hb rows
  · rfl

theorem Schema.turnRows_turnRows (hb : schema.Built) (rows : List UInt8) :
    schema.turnRows order (schema.turnRows order rows) = rows := by
  rw [turnRows, turnRows]
  split
  · exact flipRows_flipRows hb rows
  · rfl

theorem Schema.countRows_eq_ok_iff {length count : Nat} :
    schema.countRows length = .ok count ↔
      length = schema.size * count ∧ (schema.size = 0 → count = 0) := by
  rw [countRows]
  split
  · rename_i hsize
    rw [hsize, Nat.zero_mul]
    split
    · rename_i hlength
      simp [hlength, eq_comm]
    · rename_i hlength
      constructor
      · intro h
        cases h
      · rintro ⟨h, -⟩
        exact absurd h hlength
  · rename_i hsize
    split
    · rename_i hmod
      constructor
      · intro h
        cases h
      · rintro ⟨rfl, -⟩
        exact absurd (Nat.mul_mod_right _ _) hmod
    · rename_i hmod
      have hdvd := Nat.dvd_of_mod_eq_zero (not_not.1 hmod)
      constructor
      · intro h
        cases h
        exact ⟨(Nat.mul_div_cancel' hdvd).symm, fun h => absurd h hsize⟩
      · rintro ⟨rfl, -⟩
        rw [Nat.mul_div_cancel_left _ (Nat.pos_of_ne_zero hsize)]

/-- There are no more rows than bytes. -/
theorem Schema.le_of_countRows {length count : Nat} (h : schema.countRows length = .ok count) :
    count ≤ length := by
  obtain ⟨hlength, hzero⟩ := Schema.countRows_eq_ok_iff.1 h
  rcases Nat.eq_zero_or_pos schema.size with hsize | hsize
  · exact (hzero hsize).trans_le (Nat.zero_le _)
  · rw [hlength]
    exact Nat.le_mul_of_pos_left count hsize

/-- The patch of some rows, with the bounds and the summary that they have. -/
def RowPatch.ofWhole (schema : Schema) (count : Nat) (rows : List UInt8) : RowPatch :=
  { schema, count, bounds := .ofRows schema rows, summary := Summary.compute schema rows, rows,
    capacity := count }

theorem RowPatch.ofRows_eq_ok_iff {rows : List UInt8} {p : RowPatch} :
    RowPatch.ofRows schema rows = .ok p ↔
      ∃ count, schema.countRows rows.length = .ok count ∧ p = ofWhole schema count rows := by
  rw [ofRows, bind_eq_ok_iff]
  constructor
  · rintro ⟨count, hcount, h⟩
    cases h
    exact ⟨count, hcount, rfl⟩
  · rintro ⟨count, hcount, rfl⟩
    exact ⟨count, hcount, rfl⟩

theorem RowPatch.ofPayload_eq_ok_iff (hb : schema.Built) {body : List UInt8} {p : RowPatch} :
    RowPatch.ofPayload schema order body = .ok p ↔
      ∃ count, schema.countRows body.length = .ok count
        ∧ p = ofWhole schema count (schema.turnRows order body) := by
  show (schema.countRows body.length >>= fun _ =>
    RowPatch.ofRows schema (schema.turnRows order body)) = _ ↔ _
  have hlength : (schema.turnRows order body).length = body.length := Schema.length_turnRows hb body
  rw [bind_eq_ok_iff]
  simp only [ofRows_eq_ok_iff, hlength]
  constructor
  · rintro ⟨-, -, count, hcount, rfl⟩
    exact ⟨count, hcount, rfl⟩
  · rintro ⟨count, hcount, rfl⟩
    exact ⟨count, hcount, count, hcount, rfl⟩

/-! ### Blobs -/

theorem BlobPatch.ofPayload_eq_ok_iff {cursor : Cursor} {p : BlobPatch} :
    BlobPatch.ofPayload schema order cursor = .ok p ↔
      ∃ count blob, count < 256 ^ 4 ∧ cursor.rest = Word.toBytes order 4 count ++ blob
        ∧ p = { schema, count, blob } := by
  rw [ofPayload, bind_eq_ok_iff]
  constructor
  · rintro ⟨⟨count, cursor'⟩, hword, h⟩
    cases h
    obtain ⟨hcount, hrest, -⟩ := Cursor.word_eq_ok_iff.1 hword
    exact ⟨count, cursor'.rest, hcount, hrest, rfl⟩
  · rintro ⟨count, blob, hcount, hrest, rfl⟩
    exact ⟨(count, ⟨cursor.position + 4, blob⟩),
      Cursor.word_eq_ok_iff.2 ⟨hcount, hrest, rfl⟩, rfl⟩

namespace Patch

variable {p q : Patch} {message : List UInt8}

/-! ### Bounds and summary -/

/-- The patch with the bounds and the summary that some rows have. -/
def withSummaryOf (rows : List UInt8) (p : Patch) : Patch :=
  p.withHeader { p.header with
    bounds := .ofRows p.schema rows
    summary := Summary.compute p.schema rows }

theorem summarise_eq_ok_iff :
    p.summarise e = .ok q ↔ ∃ raw, p.toRows e = .ok raw ∧ q = p.withSummaryOf raw.rows := by
  have hsummarised : ∀ raw, p.toRows e = .ok raw →
      p.withHeader { p.header with
        bounds := raw.summarise.bounds
        summary := raw.summarise.summary } = p.withSummaryOf raw.rows := by
    intro raw hraw
    rw [withSummaryOf, ← schema_of_toRows hraw]
    rfl
  rw [summarise, bind_eq_ok_iff]
  constructor
  · rintro ⟨raw, hraw, h⟩
    cases h
    exact ⟨raw, hraw, hsummarised raw hraw⟩
  · rintro ⟨raw, hraw, rfl⟩
    exact ⟨raw, hraw, congrArg Except.ok (hsummarised raw hraw)⟩

theorem form_withSummaryOf (rows : List UInt8) (p : Patch) : (p.withSummaryOf rows).form = p.form :=
  form_withHeader _ p

theorem toRows_withSummaryOf {raw : RowPatch} (h : p.toRows e = .ok raw) (rows : List UInt8) :
    ∃ raw', (p.withSummaryOf rows).toRows e = .ok raw' ∧ raw'.rows = raw.rows :=
  toRows_withHeader h _ rfl rfl

/-! ### Bodies -/

/-- The body of a message, in a byte order, says a patch of a schema: the rows turned around, or
the columns, or the blob, and nothing else. -/
def Says (e : Engine) (schema : Schema) (order : ByteOrder) (body : List UInt8) (p : Patch) :
    Prop :=
  match p.form with
  | .rows => ∃ q, RowPatch.ofPayload schema order body = .ok q ∧ p = .rows q
  | .columns => ∃ q, ColumnPatch.ofPayload e schema order ⟨Opening.size, body⟩ = .ok q
      ∧ summarise e (.columns q) = .ok p
  | .blob => ∃ q, BlobPatch.ofPayload schema order ⟨Opening.size, body⟩ = .ok q
      ∧ summarise e (.blob q) = .ok p

/-- A message is read as a patch exactly if it opens like this patch and its body says it. -/
theorem ofWire_eq_ok_iff :
    ofWire e schema message = .ok p ↔
      ∃ order body, message = (Opening.mk order schema.pcid p.form).bytes ++ body
        ∧ Says e schema order body p := by
  -- a summary does not change the form, which the opening states
  have hform : ∀ {q : Patch}, summarise e q = .ok p → p.form = q.form := by
    intro q h
    obtain ⟨raw, -, rfl⟩ := summarise_eq_ok_iff.1 h
    exact form_withSummaryOf _ q
  rw [ofWire, bind_eq_ok_iff]
  constructor
  · rintro ⟨⟨⟨order, pcid, form⟩, position, body⟩, hopen, h⟩
    obtain ⟨hmessage, hposition⟩ := Opening.read_eq_ok_iff.1 hopen
    obtain ⟨hpcid, h⟩ := check_eq_ok_iff.1 h
    obtain rfl : pcid = schema.pcid := not_not.1 hpcid
    obtain rfl : position = Opening.size := hposition
    refine ⟨order, body, ?_⟩
    cases form with
    | rows =>
      obtain ⟨q, hq, h⟩ := bind_eq_ok_iff.1 h
      cases h
      exact ⟨hmessage, q, hq, rfl⟩
    | columns =>
      obtain ⟨q, hq, h⟩ := bind_eq_ok_iff.1 h
      have hp := hform h
      rw [Says, hp]
      exact ⟨hmessage, q, hq, h⟩
    | blob =>
      obtain ⟨q, hq, h⟩ := bind_eq_ok_iff.1 h
      have hp := hform h
      rw [Says, hp]
      exact ⟨hmessage, q, hq, h⟩
  · rintro ⟨order, body, hmessage, hsaid⟩
    refine ⟨(⟨order, schema.pcid, p.form⟩, ⟨Opening.size, body⟩),
      Opening.read_eq_ok_iff.2 ⟨hmessage, rfl⟩, check_eq_ok_iff.2 ⟨not_not.2 rfl, ?_⟩⟩
    rw [Says] at hsaid
    rcases hp : p.form with - | - | -
    · rw [hp] at hsaid
      obtain ⟨q, hq, rfl⟩ := hsaid
      exact bind_eq_ok_iff.2 ⟨q, hq, rfl⟩
    · rw [hp] at hsaid
      obtain ⟨q, hq, hsummary⟩ := hsaid
      exact bind_eq_ok_iff.2 ⟨q, hq, hsummary⟩
    · rw [hp] at hsaid
      obtain ⟨q, hq, hsummary⟩ := hsaid
      exact bind_eq_ok_iff.2 ⟨q, hq, hsummary⟩

/-- What a patch writes after the opening. -/
def body (e : Engine) (order : ByteOrder) : Patch → Except Fault (List UInt8)
  | .rows p => .ok (p.schema.turnRows order p.rows)
  | .columns p => p.payload e order
  | .blob p => .ok (Word.toBytes order 4 p.count ++ p.blob)

theorem toWire_eq_ok_iff :
    p.toWire e order = .ok message ↔
      ∃ body, p.body e order = .ok body
        ∧ message = (Opening.mk order p.schema.pcid p.form).bytes ++ body := by
  have hbind : p.toWire e order = (p.body e order >>= fun body =>
      .ok ((Opening.mk order p.schema.pcid p.form).bytes ++ body)) := by
    cases p <;> rfl
  rw [hbind, bind_eq_ok_iff]
  constructor
  · rintro ⟨body, hbody, h⟩
    cases h
    exact ⟨body, hbody, rfl⟩
  · rintro ⟨body, hbody, rfl⟩
    exact ⟨body, hbody, rfl⟩

end Patch

end PointPatch
