/-
PointPatch/Proofs/Point/Message.lean

Messages of points.

A message is read as a point of a schema exactly if it is a flag, the id of
the schema in the order of the flag, and a row (`ofWire_eq_ok_iff`).  The bytes
of the fields are turned around on the way in as they are on the way out, each
in its own place, so a point that has been written is read again, and a message
that has been read is written again.

A patch turns around buffers of rows, by code of its own.  A row is such a
buffer (`flipRows_eq_flipRow`); so the message of a point and that of a patch
of this one point have the same bytes behind their openings
(`toWire_inverse`).
-/
import PointPatch.Proofs.Patch.Nesting
import PointPatch.Proofs.Point.Values

namespace PointPatch

variable {s : Schema} {order : ByteOrder} {row message : List UInt8} {p : Point}

namespace Schema

/-! ### A row on its way -/

/-- A row on its way into, or out of, a message of the given order. -/
def turnRow (s : Schema) (order : ByteOrder) (row : List UInt8) : List UInt8 :=
  if order.isForeign then s.flipRow row else row

theorem length_turnRow (hb : s.Built) (hrow : row.length = s.size) :
    (s.turnRow order row).length = s.size := by
  rw [turnRow]
  split
  · exact length_flipRow hb hrow
  · exact hrow

theorem turnRow_turnRow (hb : s.Built) (hrow : row.length = s.size) :
    s.turnRow order (s.turnRow order row) = row := by
  rw [turnRow, turnRow]
  split
  · exact flipRow_flipRow hb hrow
  · rfl

/-- A row is a buffer of one row. -/
theorem flipRows_eq_flipRow (hrow : row.length = s.size) : s.flipRows row = s.flipRow row := by
  rcases Nat.eq_zero_or_pos s.size with hzero | hpos
  · -- without bytes there are no fields
    obtain rfl : row = [] := List.length_eq_zero_iff.1 (hrow.trans hzero)
    rw [flipRows, flipRow, dimensions_eq_nil_of_size hzero, chunks_nil]
    simp
  · have hpiece : ∀ piece ∈ [row], piece.length = s.size := by
      simpa using hrow
    have hchunks : chunks s.size row = [row] := by
      simpa using chunks_flatten hpos hpiece
    rw [flipRows, hchunks, hrow, Nat.div_self hpos, Nat.one_mul, ← hrow, List.drop_length]
    simp

theorem turnRows_eq_turnRow (hrow : row.length = s.size) :
    s.turnRows order row = s.turnRow order row := by
  rw [turnRows, turnRow, flipRows_eq_flipRow hrow]

end Schema

namespace Point

/-! ### Reading and writing -/

theorem toWire_eq (p : Point) (order : ByteOrder) :
    p.toWire order = Opening.shortBytes order p.schema.pcid ++ p.schema.turnRow order p.data := rfl

/-- A message is read as a point exactly if it opens as the schema has it and goes on with a row. -/
theorem ofWire_eq_ok_iff :
    ofWire s message = .ok p ↔ ∃ order row, message = Opening.shortBytes order s.pcid ++ row
      ∧ row.length = s.size ∧ p = { schema := s, data := s.turnRow order row } := by
  rw [ofWire]
  constructor
  · intro h
    obtain ⟨-, h⟩ := check_eq_ok_iff.1 h
    obtain ⟨⟨order, pcid, cursor⟩, hread, h⟩ := bind_eq_ok_iff.1 h
    obtain ⟨hpcid, h⟩ := check_eq_ok_iff.1 h
    obtain ⟨hlength, h⟩ := check_eq_ok_iff.1 h
    cases h
    obtain rfl := not_not.1 hpcid
    exact ⟨order, cursor.rest, (Opening.readShort_eq_ok_iff.1 hread).1, not_not.1 hlength, rfl⟩
  · rintro ⟨order, row, rfl, hlength, rfl⟩
    refine check_eq_ok_iff.2 ⟨by simp [Opening.shortBytes], ?_⟩
    refine bind_eq_ok_iff.2 ⟨(order, s.pcid, ⟨5, row⟩), Opening.readShort_eq_ok_iff.2 ⟨rfl, rfl⟩, ?_⟩
    exact check_eq_ok_iff.2 ⟨not_not_intro rfl,
      check_eq_ok_iff.2 ⟨not_not_intro hlength, rfl⟩⟩

/-- The messages of points of a schema: a flag, the id of the schema in the order of the flag, and
as many bytes as a record has. -/
def IsPointMessage (s : Schema) (message : List UInt8) : Prop :=
  ∃ order row, message = ByteOrder.flag order :: (Word.toBytes order 4 s.pcid.toNat ++ row)
    ∧ row.length = s.size

theorem exists_ofWire_iff : (∃ p, ofWire s message = .ok p) ↔ IsPointMessage s message := by
  simp only [ofWire_eq_ok_iff]
  constructor
  · rintro ⟨-, order, row, rfl, hlength, -⟩
    exact ⟨order, row, rfl, hlength⟩
  · rintro ⟨order, row, rfl, hlength⟩
    exact ⟨_, order, row, rfl, hlength, rfl⟩

/-- What has been written is read again. -/
theorem ofWire_of_toWire (hb : p.schema.Built) (hp : p.data.length = p.schema.size) :
    ofWire p.schema (p.toWire order) = .ok p.own := by
  refine ofWire_eq_ok_iff.2 ⟨order, p.schema.turnRow order p.data, rfl,
    Schema.length_turnRow hb hp, ?_⟩
  rw [Schema.turnRow_turnRow hb hp]
  rfl

/-- What has been read is written again. -/
theorem exists_order_of_ofWire (hb : s.Built) (h : ofWire s message = .ok p) :
    p.IsOwn s ∧ Opening.schemaId message = .ok s.pcid
      ∧ ∃ order, message.head? = some (ByteOrder.flag order) ∧ p.toWire order = message := by
  obtain ⟨order, row, rfl, hlength, rfl⟩ := ofWire_eq_ok_iff.1 h
  refine ⟨⟨rfl, Schema.length_turnRow hb hlength, rfl⟩,
    Opening.schemaId_eq_ok_iff.2 ⟨order, row, rfl⟩, order, rfl, ?_⟩
  rw [toWire_eq, Schema.turnRow_turnRow hb hlength]

/-! ### A patch of one point -/

theorem exists_ofPoints_singleton (hp : p.data.length = p.schema.size) :
    ∃ raw, RowPatch.ofPoints [p] = .ok raw ∧ raw.schema = p.schema ∧ raw.count = 1
      ∧ raw.rows = p.data := by
  have hpoints : ∀ point ∈ [p], point.schema = p.schema ∧ point.data.length = p.schema.size := by
    simpa using hp
  refine ⟨_, RowPatch.ofPoints_eq_ofWhole (List.cons_ne_nil p []) hpoints, rfl, rfl, ?_⟩
  exact List.flatMap_singleton Point.data p

/-- A patch of one point is written with the bytes that the point is written with. -/
theorem toWire_singleton {raw : RowPatch} (e : Engine) (order : ByteOrder)
    (hp : p.data.length = p.schema.size) (hschema : raw.schema = p.schema)
    (hrows : raw.rows = p.data) :
    (Patch.rows raw).toWire e order = .ok ((Opening.mk order p.schema.pcid .rows).bytes
      ++ p.schema.turnRow order p.data) := by
  rw [← Schema.turnRows_eq_turnRow hp, ← hschema, ← hrows]
  rfl

/-- Writing a point and reading a message are inverse to each other: a point, view or not, comes
back with bytes of its own; the messages that are accepted are those that say a point, and each of
them is what its point is written as, in the byte order of the message. Behind their openings, the
message of a point and that of a patch of this one point are the same. -/
theorem toWire_inverse (hb : s.Built) :
    (∀ (p : Point) order, p.schema = s → p.data.length = s.size →
        ∃ q, ofWire s (p.toWire order) = .ok q ∧ q.IsOwn s ∧ q.data = p.data)
      ∧ (∀ message, (∃ p, ofWire s message = .ok p) ↔ IsPointMessage s message)
      ∧ (∀ message p, ofWire s message = .ok p →
          p.IsOwn s ∧ Opening.schemaId message = .ok s.pcid
            ∧ ∃ order, message.head? = some (ByteOrder.flag order) ∧ p.toWire order = message)
      ∧ ∀ (p : Point) order e, p.schema = s → p.data.length = s.size → ∃ row, row.length = s.size
          ∧ p.toWire order = Opening.shortBytes order s.pcid ++ row
          ∧ (∃ raw, RowPatch.ofPoints [p] = .ok raw ∧ raw.schema = s ∧ raw.count = 1
              ∧ raw.rows = p.data)
          ∧ ∀ raw : RowPatch, raw.schema = s → raw.rows = p.data →
              (Patch.rows raw).toWire e order
                = .ok ((Opening.mk order s.pcid .rows).bytes ++ row) := by
  refine ⟨?_, fun message => exists_ofWire_iff, fun message p => exists_order_of_ofWire hb, ?_⟩
  · rintro p order rfl hp
    exact ⟨p.own, ofWire_of_toWire hb hp, ⟨rfl, hp, rfl⟩, rfl⟩
  · rintro p order e rfl hp
    exact ⟨p.schema.turnRow order p.data, Schema.length_turnRow hb hp, p.toWire_eq order,
      exists_ofPoints_singleton hp, fun raw => toWire_singleton e order hp⟩

/-- A view of a record with an empty slot, most significant bytes first: its message, what is read
of it, and the message of the patch of this point. -/
theorem toWire_inverse_openMiddle :
    let s : Schema := { (Schema.vacant 3).afterSets
      [{ name := "A", position := 0, type := .int16 }, { name := "B", position := 2, type := .uint8 }]
      with pcid := 7 }
    let p : Point := { schema := s, data := [1, 2, 3], isView := true }
    ofWire s [0, 0, 0, 0, 7, 2, 1, 3] = .ok p.own
      ∧ (∃ q, ofWire s (p.toWire .big) = .ok q ∧ q.data = [1, 2, 3])
      ∧ ∃ raw, RowPatch.ofPoints [p] = .ok raw
        ∧ (Patch.rows raw).toWire { deflate := Deflate.codec } .big
          = .ok [0, 0, 0, 0, 7, 0, 0, 0, 0, 2, 1, 3] := by
  intro s p
  have hb : s.Built := ((Schema.Built.vacant 3).afterSets _).label 7 0 .rows
  obtain ⟨hback, -, -, hpatch⟩ := toWire_inverse hb
  obtain ⟨q, hq, -, hdata⟩ := hback p .big rfl rfl
  obtain ⟨row, -, hrow, ⟨raw, hraw, hschema, -, hrows⟩, hmessage⟩ :=
    hpatch p .big { deflate := Deflate.codec } rfl rfl
  have hwire : p.toWire .big = Opening.shortBytes .big s.pcid ++ [2, 1, 3] := by decide
  refine ⟨by decide, ⟨q, hq, hdata⟩, raw, hraw, ?_⟩
  rw [hmessage raw hschema hrows]
  obtain rfl : row = [2, 1, 3] := List.append_cancel_left (hrow.symm.trans hwire)
  decide

end Point

end PointPatch
