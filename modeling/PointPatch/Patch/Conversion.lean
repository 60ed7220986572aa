/-
PointPatch/Patch/Conversion.lean

Conversions between the forms of a patch.

`toRows` leads from every form to rows, and `unnest` on to points; `uncompress`
does so if memory holds the rows.  All else that is made of rows is made of what
`toRows` gives, as if there were memory for it.  `compress` leads to the form
that the schema asks for; a patch that has it already is returned as it is,
except that columns are always stored anew, in the modes that are advised now.
None of them touches the header.  `reduce` keeps some dimensions of a patch held
as columns.
-/
import PointPatch.Patch.Blob
import PointPatch.Patch.Columns

namespace PointPatch

namespace Patch

/-! ### Rows -/

/-- The patch held as rows. -/
def toRows (e : Engine) : Patch → Except Fault RowPatch
  | .rows p => .ok p
  | .columns p => p.toRows e.deflate
  | .blob p => do p.toRows (← e.blobCodec)

/-- The patch held as rows, if these can be held in memory. Rows and what a codec gives are in
memory already. -/
def uncompress (e : Engine) : Patch → Except Fault RowPatch
  | .columns p => p.uncompress e.deflate
  | p => p.toRows e

/-- The points of a patch of any form, in order, with bytes of their own. -/
def unnest (e : Engine) (p : Patch) : Except Fault PointList := (p.toRows e).map RowPatch.points

/-- The patch with its bounds computed anew. -/
def computeBounds (e : Engine) (p : Patch) : Except Fault Patch := do
  let raw ← p.toRows e
  return p.withHeader { p.header with bounds := raw.computeBounds.bounds }

/-- The patch with its summary computed anew. -/
def computeSummary (e : Engine) (p : Patch) : Except Fault Patch := do
  let raw ← p.toRows e
  return p.withHeader { p.header with summary := raw.computeSummary.summary }

/-- The patch with bounds and summary computed anew. -/
def summarise (e : Engine) (p : Patch) : Except Fault Patch := do
  let raw := (← p.toRows e).summarise
  return p.withHeader { p.header with bounds := raw.bounds, summary := raw.summary }

/-! ### Compression -/

/-- The length of the message of a patch in machine order. -/
def wireSize (p : Patch) : Nat :=
  Opening.size +
    match p with
    | .rows p => p.rows.length
    | .columns p => p.payloadSize
    | .blob p => p.payloadSize

/-- Whether a patch has the form that its schema asks for, once and for all. -/
def isSettled : Patch → Bool
  | .rows p => p.schema.target == .rows
  | .blob p => p.schema.target == .blob
  | .columns _ => false

/-- The patch held as columns. -/
def toColumns (e : Engine) : Patch → Except Fault ColumnPatch
  | .columns p => .ok p
  | p => do return ColumnPatch.ofRows (← p.toRows e)

/-- The patch in the form that its schema asks for, and the sampling that gave advice on the
modes of columns. -/
def compress (e : Engine) (s : Sampling) (p : Patch) : Except Fault (Patch × Sampling) := do
  if p.isSettled then return (p, s)
  match p.schema.target with
  | .rows => return (.rows (← p.toRows e), s)
  | .columns =>
    let (p, s) ← (← p.toColumns e).compress e s
    return (.columns p, s)
  | .blob =>
    let codec ← e.blobCodec
    return (.blob (← BlobPatch.ofRows codec (← p.toRows e)), s)

/-- What is reported when a patch is compressed. -/
def compressNotices (e : Engine) (s : Sampling) (p : Patch) : List Notice :=
  if p.isSettled then []
  else
    let sampled := match p.schema.target, p.toColumns e with
      | .columns, .ok c => c.sampleNotices e s
      | _, _ => []
    match p.compress e s with
    | .error _ => sampled
    | .ok (q, _) =>
      let stored := match q, e.blobCodec? with
        | .blob b, some codec => b.storedNotices codec
        | _, _ => []
      sampled ++ stored ++ [.compressed p.form q.form p.count q.wireSize]

/-! ### Fewer dimensions -/

/-- The patch with the named dimensions only, in the given order. -/
def reduce (names : List String) (p : Patch) : Except Fault Patch := do
  let positions ← names.mapM p.schema.position
  match p with
  | .columns c => return .columns (← c.subset (← c.schema.subset positions) positions)
  | p => throw (.columnsNeeded p.form)

end Patch

end PointPatch
