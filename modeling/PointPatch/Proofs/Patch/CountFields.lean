/-
PointPatch/Proofs/Patch/CountFields.lean

Numbers in fields of four bytes.

A message says how many points there are, and how long the payload of each
column is, in fields of four bytes, and a codec is told the number of points
in as many.  No number is refused: a field holds what fits into it
(`IsLowWord`), which is the number itself exactly if it is below 256 ^ 4.  The
fields stand where the lengths of what is in front of them add up to, whatever
they say (`numbers_written`).

So a patch can be written that no reader will find again.  A message of a few
bytes may announce 256 ^ 4 - 1 points without a byte of rows, and merged with
itself such a patch has more points than a field says (`merged_count_wraps`).
-/
import PointPatch.Patch.Merge
import PointPatch.Proofs.Patch.Message

namespace PointPatch

/-- What a field of four bytes holds of a number. -/
structure IsLowWord (field n : Nat) : Prop where
  eq_mod : field = n % 256 ^ 4
  eq_iff : field = n ↔ n < 256 ^ 4

theorem isLowWord_of_eq_mod {field n : Nat} (h : field = n % 256 ^ 4) : IsLowWord field n := by
  subst h
  exact ⟨rfl, Nat.mod_eq_iff_lt (by decide)⟩

theorem isLowWord_uInt32 (n : Nat) : IsLowWord (UInt32.ofNat n).toNat n := by
  apply isLowWord_of_eq_mod
  exact UInt32.toNat_ofNat'

/-- The number that four bytes of a message say, from a place on. -/
def numberAt (order : ByteOrder) (place : Nat) (message : List UInt8) : Nat :=
  Word.ofBytes order (slice place 4 message)

theorem isLowWord_numberAt (order : ByteOrder) {before : List UInt8} {place : Nat}
    (h : before.length = place) (n : Nat) (after : List UInt8) :
    IsLowWord (numberAt order place (before ++ Word.toBytes order 4 n ++ after)) n := by
  apply isLowWord_of_eq_mod
  rw [numberAt, slice_append_append h (Word.length_toBytes order 4 n), Word.ofBytes_toBytes_mod]

/-! ### Columns -/

namespace Column

/-- The column stands in a message from a place on: the tag of its mode, the field that says how
long the payload is, and the payload. -/
structure StandsAt (order : ByteOrder) (message : List UInt8) (place : Nat) (c : Column) : Prop where
  tag_eq : message[place]? = some c.mode.tag
  says_length : IsLowWord (numberAt order (place + 1) message) c.payload.length
  payload_eq : slice (place + 5) c.payload.length message = c.payload

theorem standsAt_entry (order : ByteOrder) {before : List UInt8} {place : Nat}
    (h : before.length = place) (c : Column) (after : List UInt8) :
    c.StandsAt order (before ++ c.entry order ++ after) place where
  tag_eq := by
    rw [entry, List.append_assoc, List.cons_append, List.getElem?_append_right (by omega), h,
      Nat.sub_self]
    rfl
  says_length := by
    -- the tag belongs to what is in front of the field
    have htag : before ++ c.entry order ++ after
        = (before ++ [c.mode.tag]) ++ Word.toBytes order 4 c.payload.length
          ++ (c.payload ++ after) := by
      simp [entry]
    rw [htag]
    exact isLowWord_numberAt order (by simp [h]) _ _
  payload_eq := by
    -- and the field to what is in front of the payload
    have hfield : before ++ c.entry order ++ after
        = (before ++ c.mode.tag :: Word.toBytes order 4 c.payload.length) ++ c.payload ++ after := by
      simp [entry]
    rw [hfield]
    exact slice_append_append (by simp [h]) rfl after

end Column

namespace ColumnPatch

variable {order : ByteOrder}

/-- Each of the columns in a message stands behind those in front of it. -/
theorem standsAt_entries {before : List UInt8} {place : Nat} (h : before.length = place)
    (earlier : List Column) (w : Column) (later : List Column) :
    w.StandsAt order (before ++ entries order (earlier ++ w :: later))
      (place + (earlier.map Column.wireSize).sum) := by
  have hsplit : before ++ entries order (earlier ++ w :: later)
      = (before ++ entries order earlier) ++ w.entry order ++ entries order later := by
    simp [entries]
  rw [hsplit]
  apply Column.standsAt_entry
  rw [List.length_append, h, length_entries]

end ColumnPatch

/-! ### Patches -/

namespace Patch

variable {e : Engine} {p : Patch} {order : ByteOrder} {message : List UInt8}

theorem length_openingBytes (order : ByteOrder) (p : Patch) :
    (Opening.mk order p.schema.pcid p.form).bytes.length = Opening.size :=
  Opening.length_bytes _

/-- After the opening, a message that is not of rows says the number of points. -/
theorem says_count (hform : p.form ≠ .rows) (h : p.toWire e order = .ok message) :
    IsLowWord (numberAt order Opening.size message) p.count := by
  obtain ⟨body, hbody, rfl⟩ := toWire_eq_ok_iff.1 h
  cases p with
  | rows p => exact absurd rfl hform
  | columns p =>
    obtain ⟨ws, -, rfl⟩ := ColumnPatch.payload_eq_ok_iff.1 hbody
    rw [← List.append_assoc]
    exact isLowWord_numberAt order (length_openingBytes order _) p.count _
  | blob p =>
    cases hbody
    rw [← List.append_assoc]
    exact isLowWord_numberAt order (length_openingBytes order _) p.count _

/-- Behind the number of points a message has the columns, turned around, one after another up to
its end. -/
theorem exists_standsAt {c : ColumnPatch} (h : (columns c).toWire e order = .ok message) :
    ∃ ws, c.columns.Forall₂ (fun c w => c.toOrder e.deflate e.config.deflateLevel order = .ok w) ws
      ∧ message.length = Opening.size + 4 + (ws.map Column.wireSize).sum
      ∧ ∀ earlier w later, ws = earlier ++ w :: later →
          w.StandsAt order message (Opening.size + 4 + (earlier.map Column.wireSize).sum) := by
  obtain ⟨body, hbody, rfl⟩ := toWire_eq_ok_iff.1 h
  obtain ⟨ws, hturned, rfl⟩ := ColumnPatch.payload_eq_ok_iff.1 hbody
  have hfront : ((Opening.mk order (columns c).schema.pcid (columns c).form).bytes
      ++ Word.toBytes order 4 c.count).length = Opening.size + 4 := by
    rw [List.length_append, length_openingBytes, Word.length_toBytes]
  rw [← List.append_assoc]
  refine ⟨ws, hturned, ?_, ?_⟩
  · rw [List.length_append, hfront, ColumnPatch.length_entries]
  · rintro earlier w later rfl
    exact ColumnPatch.standsAt_entries hfront earlier w later

/-- A well-formed patch is written in either byte order, and in machine order every patch is,
whatever the numbers are. -/
theorem exists_toWire (h : order = .machine ∨ p.WellFormed e) :
    ∃ message, p.toWire e order = .ok message := by
  have hbody : ∃ body, p.body e order = .ok body := by
    cases p with
    | rows p => exact ⟨_, rfl⟩
    | columns p =>
      have hturns : ∀ c ∈ p.columns,
          ∃ w, c.toOrder e.deflate e.config.deflateLevel order = .ok w := by
        intro c hc
        rcases h with rfl | hwell
        · exact ⟨c, Column.toOrder_of_needsFlip_eq_false c.needsFlip_machine⟩
        · obtain ⟨d, -, bytes, hstores⟩ := exists_of_mem_right hwell hc
          exact Column.exists_toOrder hstores.content_eq
      obtain ⟨ws, hws⟩ := exists_forall₂ hturns
      exact ⟨_, ColumnPatch.payload_eq_ok_iff.2 ⟨ws, hws, rfl⟩⟩
    | blob p => exact ⟨_, rfl⟩
  obtain ⟨body, hbody⟩ := hbody
  exact ⟨_, toWire_eq_ok_iff.2 ⟨body, hbody, rfl⟩⟩

/-- A codec is told what a word holds of the number of points, and stores the rows on that. -/
theorem exists_told (codec : BlobCodec) (p : RowPatch) :
    ∃ told : UInt32, IsLowWord told.toNat p.count
      ∧ ∀ q, BlobPatch.ofRows codec p = .ok q ↔
          ∃ blob, codec.encode p.schema p.rows told = .ok blob
            ∧ q = { toPatchHeader := p.toPatchHeader, blob } := by
  refine ⟨UInt32.ofNat p.count, isLowWord_uInt32 p.count, fun q => ?_⟩
  rw [BlobPatch.ofRows, bind_eq_ok_iff]
  refine exists_congr fun blob => and_congr_right fun _ => ?_
  constructor
  · intro h
    cases h
    rfl
  · rintro rfl
    rfl

/-- A message of columns or of a blob says, in either byte order, what fits into four bytes of the
number of points and of the length of each payload, where the fields stand that say so; a patch is
not refused for its numbers; and a codec is told what fits into a word of the number of points. -/
theorem numbers_written (e : Engine) :
    (∀ (p : Patch) order message, p.form ≠ .rows → p.toWire e order = .ok message →
      IsLowWord (numberAt order Opening.size message) p.count
        ∧ ∀ c, p = .columns c → ∃ ws,
            c.columns.Forall₂
              (fun c w => c.toOrder e.deflate e.config.deflateLevel order = .ok w) ws
            ∧ message.length = Opening.size + 4 + (ws.map Column.wireSize).sum
            ∧ ∀ earlier w later, ws = earlier ++ w :: later →
                w.StandsAt order message (Opening.size + 4 + (earlier.map Column.wireSize).sum))
    ∧ (∀ (p : Patch) order, order = .machine ∨ p.WellFormed e →
        ∃ message, p.toWire e order = .ok message)
    ∧ ∀ (codec : BlobCodec) (p : RowPatch), ∃ told : UInt32, IsLowWord told.toNat p.count
        ∧ ∀ q, BlobPatch.ofRows codec p = .ok q ↔
            ∃ blob, codec.encode p.schema p.rows told = .ok blob
              ∧ q = { toPatchHeader := p.toPatchHeader, blob } := by
  refine ⟨?_, fun _ _ => exists_toWire, exists_told⟩
  intro p order message hform h
  refine ⟨says_count hform h, ?_⟩
  rintro c rfl
  exact exists_standsAt h

/-- The message of three points in four columns says that there are three, and that the values of
the first column take twelve bytes. -/
theorem numbers_written_specimen :
    let e : Engine := { deflate := Deflate.codec }
    ∃ message, (Patch.columns .specimen).toWire e .machine = .ok message
      ∧ numberAt .machine 9 message = 3 ∧ numberAt .machine 14 message = 12
      ∧ slice 18 12 message = [1, 0, 0, 0, 2, 0, 0, 0, 3, 0, 0, 0] := by
  intro e
  obtain ⟨hfields, hwritten, -⟩ := numbers_written e
  obtain ⟨message, hmessage⟩ := hwritten (.columns .specimen) .machine (.inl rfl)
  obtain ⟨hcount, hcolumns⟩ := hfields _ .machine message (by decide) hmessage
  obtain ⟨ws, hturned, -, hstands⟩ := hcolumns _ rfl
  obtain ⟨w, ws, hw, -, rfl⟩ := List.forall₂_cons_left_iff.1 hturned
  cases hw
  have hfirst := hstands [] _ ws rfl
  exact ⟨message, hmessage, hcount.eq_mod, hfirst.says_length.eq_mod, hfirst.payload_eq⟩

/-- A codec whose blobs are the numbers that it is told. -/
def tellTale : BlobCodec where
  name := "tell-tale"
  encode _ _ count := .ok (Word.toBytes .little 4 count.toNat)
  decode _ _ _ := .ok []

/-- A message that announces as many points as it can, without a byte of rows, is read; merged with
itself the patch has twice as many points; and it is written with two points less than 256 ^ 4,
which the codec of blobs is told as well. -/
theorem merged_count_wraps :
    let e : Engine := { deflate := Deflate.codec, blobCodec? := some tellTale }
    let schema : Schema := { Schema.vacant 0 with pcid := 7 }
    ∃ p, ofWire e schema [1, 7, 0, 0, 0, 2, 0, 0, 0, 255, 255, 255, 255] = .ok p
      ∧ ∃ m, merge e [p, p] = .ok m ∧ m.count = 2 * (256 ^ 4 - 1)
        ∧ (Patch.columns (ColumnPatch.ofRows m)).toWire e .little
          = .ok [1, 7, 0, 0, 0, 2, 0, 0, 0, 254, 255, 255, 255]
        ∧ numberAt .little Opening.size [1, 7, 0, 0, 0, 2, 0, 0, 0, 254, 255, 255, 255] = 256 ^ 4 - 2
        ∧ BlobPatch.ofRows tellTale m
          = .ok { toPatchHeader := m.toPatchHeader, blob := [254, 255, 255, 255] } := by
  refine ⟨_, rfl, _, rfl, ?_, ?_, ?_, ?_⟩
  · decide
  · decide
  · decide
  · decide

end Patch

end PointPatch
