/-
PointPatch/Dimension.lean

One named, typed field of a record.

The stored value of a field stands for a number by way of a scale and an
offset.  The place of the field in a record, `byteOffset`, is assigned by the
schema that holds the dimension; its width follows from the type.
-/
import PointPatch.Bytes.Chunk
import PointPatch.Interpretation

namespace PointPatch

/-- A named, typed field of a record. -/
structure Dimension where
  /-- The name, looked up without regard to case. -/
  name : String
  /-- What the field is about. -/
  description : String := ""
  /-- The slot of the schema that the dimension belongs to, counted from zero. -/
  position : Nat
  /-- The type of the stored value. -/
  type : Interpretation
  /-- Where the field begins in a record. -/
  byteOffset : Nat := 0
  /-- What a stored value is multiplied by. -/
  scale : Double := .one
  /-- What is added to a scaled value. -/
  offset : Double := .zero
  /-- Whether the document marks the field as active. -/
  isActive : Bool := true
deriving DecidableEq, Repr

namespace Dimension

/-- The width of the field in bytes. -/
def size (d : Dimension) : Nat := d.type.size

/-- The bytes of the field in a record. -/
def field (d : Dimension) (row : List UInt8) : List UInt8 := slice d.byteOffset d.size row

/-- The number that the field of a record stands for. -/
def read (d : Dimension) (row : List UInt8) : Double :=
  d.type.read (d.field row) * d.scale + d.offset

/-- The record with a number stored in the field. -/
def write (d : Dimension) (value : Double) (row : List UInt8) : List UInt8 :=
  overwrite d.byteOffset (d.type.write ((value - d.offset) / d.scale)) row

/-- The record with the bytes of the field reversed. -/
def flip (d : Dimension) (row : List UInt8) : List UInt8 :=
  overwrite d.byteOffset (d.field row).reverse row

end Dimension

end PointPatch
