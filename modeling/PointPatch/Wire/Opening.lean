/-
PointPatch/Wire/Opening.lean

How messages open: a flag for the byte order, the id of the schema in four
bytes of that order, and for patches the tag of their form in four more.
The schema of a message can be looked up without reading any further.
-/
import PointPatch.Wire.Cursor

namespace PointPatch

/-- The opening of the message of a patch. -/
structure Opening where
  /-- The byte order of the message. -/
  order : ByteOrder
  /-- The id of the schema. -/
  pcid : UInt32
  /-- The form that the patch is held in. -/
  form : Representation
deriving DecidableEq, Repr

namespace Opening

/-- The bytes that all messages open with. -/
def shortBytes (order : ByteOrder) (pcid : UInt32) : List UInt8 :=
  order.flag :: Word.toBytes order 4 pcid.toNat

/-- The bytes that the message of a patch opens with. -/
def bytes (o : Opening) : List UInt8 :=
  shortBytes o.order o.pcid ++ Word.toBytes o.order 4 o.form.tag

/-- How many bytes the opening of a patch takes. -/
def size : Nat := 9

/-- Reads what all messages open with. -/
def readShort (c : Cursor) : Except Fault (ByteOrder × UInt32 × Cursor) := do
  let (flag, c) ← c.byte
  let order ← ByteOrder.ofFlag flag
  let (id, c) ← c.word order
  return (order, UInt32.ofNat id, c)

/-- Reads the opening of the message of a patch. -/
def read (message : List UInt8) : Except Fault (Opening × Cursor) := do
  if message = [] then throw .emptyMessage
  if message.length < size then throw (.headerTooShort message.length)
  let (order, pcid, c) ← readShort (.start message)
  let (tag, c) ← c.word order
  let form ← Representation.ofTag tag
  return (⟨order, pcid, form⟩, c)

/-- The id of the schema of a message. -/
def schemaId (message : List UInt8) : Except Fault UInt32 := do
  if message.length < 5 then throw (.noSchemaId message.length)
  let (_, pcid, _) ← readShort (.start message)
  return pcid

end Opening

end PointPatch
