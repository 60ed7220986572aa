/-
PointPatch/Patch/Merge.lean

Many patches made into one.

The rows follow each other in the order of the list, the bounds are merged,
and the summary is computed anew.  All patches have to carry the id of the
schema of the first, whose layout the result has.
-/
import PointPatch.Patch.Conversion

namespace PointPatch

namespace Patch

/-- The patch of all points of some patches. -/
def merge (e : Engine) (ps : List Patch) : Except Fault RowPatch :=
  match ps with
  | [] => .error .noPatches
  | first :: _ => do
    let schema := first.schema
    if let some other := ps.find? fun p => p.schema.pcid != schema.pcid then
      throw (.mixedSchemas schema.pcid other.schema.pcid)
    let rows ← ps.mapM fun p => return (← p.toRows e).rows
    let header : PatchHeader :=
      { schema
        count := (ps.map count).foldr (· + ·) 0
        bounds := (ps.map Patch.bounds).foldl Bounds.merge .empty }
    return (RowPatch.ofHeader header rows.flatten).computeSummary

/-- What is reported when patches are merged. -/
def mergeNotices (e : Engine) (ps : List Patch) : List Notice :=
  match merge e ps with
  | .ok p => [.merged ps.length p.count]
  | .error _ => []

end Patch

end PointPatch
