/-
PointPatch/Column/Wire.lean

Columns on the wire: the tag of the mode, the length of the payload in four
bytes, the payload.  The element words inside a payload follow the byte order
of the message, so a payload is turned around on its way to or from a foreign
message; a compressed stream has to be unpacked and packed again for that.
The length field holds the low four bytes of the length.
-/
import PointPatch.Column.Basic
import PointPatch.Wire.Cursor

namespace PointPatch

namespace Column

/-- The column with the byte order of every element word in its payload turned around. -/
def flip (z : ColumnCodec) (level : Nat) (c : Column) : Except Fault Column :=
  let size := c.type.size
  match c.mode with
  | .raw => .ok { c with payload := reverseChunks size c.payload }
  | .rle => .ok { c with payload := RunLength.flip size c.payload }
  | .sigbits => .ok { c with payload := Sigbits.flip size c.payload }
  | .deflate => do
    let content ← Deflate.decode z c.rawLength c.payload
    return { c with payload := z.pack level (reverseChunks size content) }

/-- Whether a column needs turning around for a message of the given order. -/
def needsFlip (c : Column) (order : ByteOrder) : Bool :=
  order.isForeign && 1 < c.type.size

/-- The column as it goes into, or comes out of, a message of the given order. -/
def toOrder (z : ColumnCodec) (level : Nat) (order : ByteOrder) (c : Column) :
    Except Fault Column :=
  if c.needsFlip order then c.flip z level else .ok c

/-- The length of the message of a column in machine order. -/
def wireSize (c : Column) : Nat := 1 + 4 + c.payload.length

/-- The message of a column. -/
def write (z : ColumnCodec) (level : Nat) (order : ByteOrder) (c : Column) :
    Except Fault (List UInt8) := do
  let c ← c.toOrder z level order
  return c.mode.tag :: Word.toBytes order 4 c.payload.length ++ c.payload

/-- Reads a column of `count` values. The length of a raw payload is checked at once, all other
payloads are only checked when they are decoded. -/
def read (z : ColumnCodec) (level : Nat) (order : ByteOrder) (type : Interpretation)
    (count : Nat) (cursor : Cursor) : Except Fault (Column × Cursor) := do
  let (tag, cursor) ← cursor.byte
  let mode ← Mode.ofTag tag
  let (length, cursor) ← cursor.word order
  let (payload, cursor) ← cursor.bytes length
  if mode = .raw ∧ length ≠ count * type.size then
    throw (.rawColumnLength type length count)
  let column ← toOrder z level order ⟨type, count, mode, payload⟩
  return (column, cursor)

end Column

end PointPatch
