/-
PointPatch/Engine.lean

What conversions work with: the settings, what columns are stored with, and
the codec of blobs, if there is one.

A blob codec is handed the schema and the number of points together with the
bytes.  The one that comes with the library stores the rows as a stream with
their length in front.
-/
import PointPatch.Column.Codec
import PointPatch.Config
import PointPatch.Schema.Basic
import PointPatch.Stream.Zstandard

namespace PointPatch

/-- A way to store rows as a blob. -/
structure BlobCodec where
  /-- The name in notices and error texts. -/
  name : String
  /-- The blob of some rows. -/
  encode : Schema → List UInt8 → UInt32 → Except Fault (List UInt8)
  /-- The rows of a blob. -/
  decode : Schema → List UInt8 → UInt32 → Except Fault (List UInt8)

namespace BlobCodec

/-- The codec gives back all rows that it is handed whole. -/
def Lossless (c : BlobCodec) : Prop :=
  ∀ schema rows count, rows.length = schema.size * count.toNat →
    ∃ blob, c.encode schema rows count = .ok blob ∧ c.decode schema blob count = .ok rows

/-- The codec that stores rows as a stream of the given format. -/
def ofStream (z : StreamCodec) (level : Int) : BlobCodec where
  name := "zstd"
  encode schema rows count :=
    if rows.length ≠ schema.size * count.toNat then
      .error (.rowBytes rows.length count schema.pcid)
    else .ok (Zstandard.encode z level rows)
  decode schema blob count :=
    if Nat.pow 2 64 ≤ schema.size * count.toNat then .error (.rowsOverflow count.toNat)
    else Zstandard.decode z (schema.size * count.toNat) blob

end BlobCodec

/-- What conversions work with. -/
structure Engine where
  /-- The settings. -/
  config : Config := {}
  /-- What columns are stored with. -/
  deflate : ColumnCodec
  /-- The codec of blobs. -/
  blobCodec? : Option BlobCodec := none

/-- The codec of blobs, or a fault. -/
def Engine.blobCodec (e : Engine) : Except Fault BlobCodec :=
  match e.blobCodec? with
  | some c => .ok c
  | none => .error .noBlobCodec

end PointPatch
