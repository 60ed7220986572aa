/-
PointPatch/Patch/Blob.lean

Patches held as blobs.  What a codec gives back has to be as long as the rows
that it was handed; the codec is told the low four bytes of the number of
points.
-/
import PointPatch.Engine
import PointPatch.Notice
import PointPatch.Patch.Rows

namespace PointPatch

namespace BlobPatch

/-- The patch with its rows stored by a codec. -/
def ofRows (codec : BlobCodec) (p : RowPatch) : Except Fault BlobPatch := do
  let blob ← codec.encode p.schema p.rows (UInt32.ofNat p.count)
  return { toPatchHeader := p.toPatchHeader, blob }

/-- What is reported when rows have been stored. -/
def storedNotices (codec : BlobCodec) (p : BlobPatch) : List Notice :=
  [.blobStored codec.name p.count p.blob.length]

/-- The patch held as rows. -/
def toRows (codec : BlobCodec) (p : BlobPatch) : Except Fault RowPatch := do
  let rows ← codec.decode p.schema p.blob (UInt32.ofNat p.count)
  if rows.length ≠ p.schema.size * p.count then
    throw (.codecLength codec.name rows.length p.count p.schema.size)
  return RowPatch.ofHeader p.toPatchHeader rows

/-- How long the part of the message after the opening is. -/
def payloadSize (p : BlobPatch) : Nat := 4 + p.blob.length

/-- What the message of the patch holds after the opening: the number of points, then the
blob. -/
def payload (p : BlobPatch) (order : ByteOrder) : List UInt8 :=
  Word.toBytes order 4 p.count ++ p.blob

/-- Reads a patch from what its message holds after the opening. Bounds and summary are left
empty. -/
def ofPayload (schema : Schema) (order : ByteOrder) (cursor : Cursor) :
    Except Fault BlobPatch := do
  let (count, cursor) ← cursor.word order
  return { schema, count, blob := cursor.rest }

end BlobPatch

end PointPatch
