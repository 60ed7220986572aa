/-
PointPatch/Column/Basic.lean

The values of one dimension for all points of a patch.

A column is raw or stored in one of three compressed modes.  Only a raw
column can be encoded and counted; `decode` always leads back to a raw one,
and a stored column is never changed in place.
-/
import PointPatch.Column.Codec
import PointPatch.Column.Deflate
import PointPatch.Column.RunLength
import PointPatch.Column.Sigbits

namespace PointPatch

/-- The values of one dimension. -/
structure Column where
  /-- The type of the values. -/
  type : Interpretation
  /-- How many values there are. -/
  count : Nat
  /-- How they are stored. -/
  mode : Mode
  /-- The stored bytes. -/
  payload : List UInt8
deriving DecidableEq, Repr

/-- Least, greatest and mean value of a column. -/
structure Column.Range where
  /-- The least value. -/
  min : Double
  /-- The greatest value. -/
  max : Double
  /-- The mean. -/
  avg : Double
deriving DecidableEq, Repr

namespace Column

/-- A raw column of the given bytes, which have to be whole elements. -/
def ofRaw (type : Interpretation) (bytes : List UInt8) : Except Fault Column :=
  if bytes.length % type.size ≠ 0 then .error (.partialElements bytes.length type)
  else .ok ⟨type, bytes.length / type.size, .raw, bytes⟩

/-- The raw column of the values that stand at `byteOffset` in each row. -/
def gather (type : Interpretation) (rows : List UInt8) (rowSize byteOffset : Nat) : Column :=
  ⟨type, rows.length / rowSize, .raw,
    (chunks rowSize rows).flatMap fun row => slice byteOffset type.size row⟩

/-- Rows with the values of a raw column put in at `byteOffset`. Rows and values are paired up
in order; rows without a value stay as they are. -/
def scatter (c : Column) (rows : List (List UInt8)) (byteOffset : Nat) : List (List UInt8) :=
  let values := chunks c.type.size c.payload
  (rows.zip values).map (fun rv => overwrite byteOffset rv.2 rv.1) ++ rows.drop values.length

/-- The number of bytes of the raw elements, kept within a machine word. -/
def rawLength (c : Column) : Nat := min (c.count * c.type.size) (Nat.pow 2 64 - 1)

/-! ### Modes -/

/-- Fails for a column that is not raw. -/
def requireRaw (c : Column) (operation : String) : Except Fault Unit :=
  if c.mode = .raw then .ok () else .error (.columnNotRaw operation c.mode)

/-- The number of maximal runs of equal elements of a raw column. -/
def runCount (c : Column) : Except Fault Nat := do
  c.requireRaw "run_count"
  return PointPatch.runCount (chunks c.type.size c.payload)

/-- The number of leading bits that all elements of a raw column share. -/
def sharedBitCount (c : Column) : Except Fault Nat := do
  c.requireRaw "sigbits_count"
  Sigbits.commonBitCount c.type.size c.payload

/-- A raw column stored in another mode. The level only matters to streams. -/
def encode (z : ColumnCodec) (level : Nat) (mode : Mode) (c : Column) : Except Fault Column := do
  c.requireRaw "encode"
  let payload ← match mode with
    | .raw => .ok c.payload
    | .rle => .ok (RunLength.encode c.type.size c.payload)
    | .sigbits => Sigbits.encode c.type.size c.payload
    | .deflate => .ok (z.pack level c.payload)
  return { c with mode, payload }

/-- The raw form of a column. -/
def decode (z : ColumnCodec) (c : Column) : Except Fault Column := do
  let payload ← match c.mode with
    | .raw => .ok c.payload
    | .rle => RunLength.decode c.type.size c.count c.payload
    | .sigbits => Sigbits.decode c.type.size c.count c.payload z.memory
    | .deflate => Deflate.decode z c.rawLength c.payload
  return { c with mode := .raw, payload }

/-! ### Values -/

/-- The numbers that the elements of a raw column stand for. -/
def values (c : Column) : List Double :=
  (chunks c.type.size c.payload).map c.type.read

/-- Least, greatest and mean value; none for an empty column. -/
def range (z : ColumnCodec) (c : Column) : Except Fault (Option Range) := do
  if c.count = 0 then return none
  let raw ← c.decode z
  return some
    { min := raw.values.foldl Double.min Double.largest
      max := raw.values.foldl Double.max Double.lowest
      avg := raw.values.foldl (· + ·) Double.zero / Double.ofNat raw.count }

end Column

end PointPatch
