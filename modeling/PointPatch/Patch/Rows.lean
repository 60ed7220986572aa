/-
PointPatch/Patch/Rows.lean

Patches held as rows.

They are made from a buffer of whole rows or from points, and points can be
added at the end.  A patch has room for a number of points; when it is full
the room is doubled.  `summarise` computes bounds and summary anew.
-/
import PointPatch.Patch.Basic

namespace PointPatch

/-- The number of whole rows in a buffer, or a fault where a row is not whole. -/
def Schema.countRows (s : Schema) (length : Nat) : Except Fault Nat :=
  if s.size = 0 then if length = 0 then .ok 0 else .error (.zeroWidthRows s.pcid length)
  else if length % s.size ≠ 0 then .error (.partialRows length s.size)
  else .ok (length / s.size)

/-- The rectangle that the rows of a buffer lie in; empty where a coordinate is not known. -/
def Bounds.ofRows (s : Schema) (buffer : List UInt8) : Bounds :=
  match s.xyDimensions? with
  | some (x, y) =>
    (chunks s.size buffer).foldl (fun b row => b.expand (x.read row) (y.read row)) .empty
  | none => .empty

namespace RowPatch

/-- A patch without points that has room for some. -/
def vacant (schema : Schema) (capacity : Nat) : RowPatch :=
  { schema, count := 0, rows := [], capacity }

/-- A patch without points that has room for some, if there is as much room. -/
def withRoom (schema : Schema) (capacity : Nat) (memory : Memory := .tebibyte) :
    Except Fault RowPatch :=
  if memory.grants (capacity * schema.size) then .ok (vacant schema capacity)
  else .error (.roomRefused capacity schema.size)

/-- Fails where so many rows cannot be held in one buffer. -/
def checkRoom (memory : Memory) (schema : Schema) (count : Nat) : Except Fault Unit :=
  if Nat.pow 2 64 ≤ schema.size * count then .error (.rowsOverflow count)
  else if memory.grants (schema.size * count) then .ok ()
  else .error (.rowsRefused count)

/-- The patch with a given header that is full. -/
def ofHeader (h : PatchHeader) (rows : List UInt8) : RowPatch :=
  { toPatchHeader := h, rows, capacity := h.count }

/-! ### Bounds and summary -/

/-- The patch with its bounds computed anew. -/
def computeBounds (p : RowPatch) : RowPatch :=
  { p with bounds := .ofRows p.schema p.rows }

/-- The patch with its summary computed anew. -/
def computeSummary (p : RowPatch) : RowPatch :=
  { p with summary := Summary.compute p.schema p.rows }

/-- The patch with bounds and summary computed anew. -/
def summarise (p : RowPatch) : RowPatch := p.computeBounds.computeSummary

/-! ### Construction -/

/-- The patch of a buffer of whole rows. -/
def ofRows (schema : Schema) (rows : List UInt8) : Except Fault RowPatch := do
  let count ← schema.countRows rows.length
  return (ofHeader { schema, count } rows).summarise

/-- The patch with its room doubled if it is full. -/
def makeRoom (p : RowPatch) : Except Fault RowPatch :=
  if p.count ≠ p.capacity then .ok p
  else
    let capacity := max (2 * p.capacity) 1
    if capacity * p.schema.size < p.rows.length then
      .error (.rowsBeyondCapacity p.rows.length capacity)
    else .ok { p with capacity }

/-- The patch with a point added at the end. The summary is left as it was. -/
def add (p : RowPatch) (point : Point) : Except Fault RowPatch := do
  if point.schema.pcid ≠ p.schema.pcid ∨ point.data.length ≠ p.schema.size then
    throw (.foreignPoint point.schema.pcid p.schema.pcid)
  let p ← p.makeRoom
  return { p with
    count := p.count + 1
    bounds := match point.x, point.y with
      | .ok x, .ok y => p.bounds.expand x y
      | _, _ => p.bounds
    rows := p.rows ++ point.data }

/-- The patch of some points, in the schema of the first. -/
def ofPoints (points : PointList) : Except Fault RowPatch :=
  match points with
  | [] => .error .noPoints
  | first :: _ => do
    let p ← points.foldlM add (vacant first.schema points.length)
    return p.computeSummary

/-! ### Points -/

/-- A view of a point. -/
def point (p : RowPatch) (index : Nat) : Except Fault Point :=
  if p.count ≤ index then .error (.indexOutOfRange index p.count)
  else if p.rows.length < (index + 1) * p.schema.size then .error (.rowMissing index)
  else Point.view p.schema (slice (index * p.schema.size) p.schema.size p.rows)

/-- The points of all rows. -/
def points (p : RowPatch) : PointList :=
  (chunks p.schema.size p.rows).map fun row => { schema := p.schema, data := row }

/-! ### Messages -/

/-- What the message of the patch holds after the opening. -/
def payload (p : RowPatch) (order : ByteOrder) : List UInt8 :=
  if order.isForeign then p.schema.flipRows p.rows else p.rows

/-- Reads a patch from what its message holds after the opening. -/
def ofPayload (schema : Schema) (order : ByteOrder) (payload : List UInt8) :
    Except Fault RowPatch := do
  let _ ← schema.countRows payload.length
  ofRows schema (if order.isForeign then schema.flipRows payload else payload)

end RowPatch

end PointPatch
