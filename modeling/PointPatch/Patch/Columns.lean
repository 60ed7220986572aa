/-
PointPatch/Patch/Columns.lean

Patches held as columns.

Rows are split into raw columns, and put together again once every column has
been decoded and found to be as long as the patch says.  How much memory the
rows take can be far more than the columns do: `toRows` says which rows these
are, and `uncompress` asks for the memory.  Columns are stored in the modes
that a sampling advises; while the sampling has not seen enough points, the
patch is taken into it first.
-/
import PointPatch.Patch.Rows
import PointPatch.Sampling

namespace PointPatch

namespace ColumnPatch

/-! ### Rows and columns -/

/-- The patch with its rows split into raw columns. -/
def ofRows (p : RowPatch) : ColumnPatch :=
  { toPatchHeader := p.toPatchHeader
    columns := p.schema.dimensions.map fun d =>
      Column.gather d.type p.rows p.schema.size d.byteOffset }

/-- The patch with every column decoded. -/
def decode (z : ColumnCodec) (p : ColumnPatch) : Except Fault ColumnPatch := do
  let columns ← p.columns.mapM (Column.decode z)
  return { p with columns }

/-- Fails for a raw column that is not as long as the patch says. -/
def checkLength (count : Nat) (d : Dimension) (c : Column) : Except Fault Unit :=
  if c.count ≠ count ∨ c.payload.length ≠ count * d.size then
    .error (.columnLength d.name c.payload.length count)
  else .ok ()

/-- Rows put together from raw columns, each in the field of its dimension. -/
def weave (schema : Schema) (count : Nat) (columns : List Column) : List (List UInt8) :=
  (schema.dimensions.zip columns).foldl (fun rows (d, c) => c.scatter rows d.byteOffset)
    (chunks schema.size (List.replicate (schema.size * count) 0))

/-- The patch held as rows, whatever memory these take. -/
def toRows (z : ColumnCodec) (p : ColumnPatch) : Except Fault RowPatch := do
  let raw ← p.decode z
  (raw.schema.dimensions.zip raw.columns).forM fun (d, c) => checkLength raw.count d c
  return RowPatch.ofHeader raw.toPatchHeader
    (weave raw.schema raw.count raw.columns).flatten

/-- The patch held as rows, if they can be held in memory. -/
def uncompress (z : ColumnCodec) (p : ColumnPatch) : Except Fault RowPatch := do
  let raw ← p.toRows z
  RowPatch.checkRoom z.memory p.schema p.count
  return raw

/-! ### Modes -/

/-- A raw column stored in the mode that is advised for the dimension in a place. -/
def encodeColumn (e : Engine) (s : Sampling) (c : Column) (position : Nat) :
    Except Fault Column :=
  match s.advice? position with
  | none => .error (.noAdvice position)
  | some mode => c.encode e.deflate e.config.deflateLevel mode

/-- The sampling by which a raw patch is stored: one that has not seen enough points takes the
patch in first. -/
def sample (e : Engine) (s : Sampling) (raw : ColumnPatch) : Except Fault Sampling :=
  if s.points < e.config.sampleThreshold then s.update e.deflate raw else .ok s

/-- The patch with every column stored in the mode that is advised, and the sampling that gave
the advice. -/
def compress (e : Engine) (s : Sampling) (p : ColumnPatch) :
    Except Fault (ColumnPatch × Sampling) := do
  let raw ← p.decode e.deflate
  let s ← sample e s raw
  let columns ← raw.columns.zipIdx.mapM fun (c, position) => encodeColumn e s c position
  return ({ raw with columns }, s)

/-- What is reported while the columns are stored. -/
def sampleNotices (e : Engine) (s : Sampling) (p : ColumnPatch) : List Notice :=
  match p.decode e.deflate with
  | .ok raw =>
    if s.points < e.config.sampleThreshold then s.updateNotices e.deflate raw else []
  | .error _ => []

/-! ### Subsets -/

/-- The patch with the columns at some positions, under a schema that has been reduced to
these. -/
def subset (p : ColumnPatch) (schema : Schema) (positions : List Nat) :
    Except Fault ColumnPatch := do
  let columns ← positions.mapM fun position =>
    match p.columns[position]? with
    | some c => .ok c
    | none => .error (.indexOutOfRange position p.columns.length)
  let summary ← p.summary.mapM (Summary.restrict · schema)
  return { schema, count := p.count, bounds := p.bounds, summary, columns }

/-! ### Messages -/

/-- How long the part of the message after the opening is, in machine order. -/
def payloadSize (p : ColumnPatch) : Nat := 4 + (p.columns.map Column.wireSize).foldr (· + ·) 0

/-- What the message of the patch holds after the opening: the number of points, then the
columns. -/
def payload (e : Engine) (p : ColumnPatch) (order : ByteOrder) : Except Fault (List UInt8) := do
  let columns ← p.columns.mapM (Column.write e.deflate e.config.deflateLevel order)
  return Word.toBytes order 4 p.count ++ columns.flatten

/-- Reads the columns of some dimensions, one after another. -/
def readColumns (e : Engine) (order : ByteOrder) (count : Nat) :
    List Dimension → Cursor → Except Fault (List Column × Cursor)
  | [], cursor => .ok ([], cursor)
  | d :: ds, cursor => do
    let (c, cursor) ← Column.read e.deflate e.config.deflateLevel order d.type count cursor
    let (cs, cursor) ← readColumns e order count ds cursor
    return (c :: cs, cursor)

/-- Reads a patch from what its message holds after the opening, to its end. Bounds and summary
are left empty. -/
def ofPayload (e : Engine) (schema : Schema) (order : ByteOrder) (cursor : Cursor) :
    Except Fault ColumnPatch := do
  let (count, cursor) ← cursor.word order
  let (columns, cursor) ← readColumns e order count schema.dimensions cursor
  if columns.length ≠ schema.slotCount then throw (.unfilledSlots schema.pcid)
  if cursor.rest.length ≠ 0 then throw (.trailingBytes cursor.rest.length)
  return { schema, count, columns }

end ColumnPatch

end PointPatch
