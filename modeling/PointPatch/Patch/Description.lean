/-
PointPatch/Patch/Description.lean

What can be asked about a patch without looking at its points: a statistic
of a dimension, whether it meets another patch, and a short document.
-/
import PointPatch.Patch.Conversion

namespace PointPatch

/-- The document of a rectangle. -/
def Bounds.toJson (b : Bounds) : Json :=
  .ofMembers
    [("xmax", .ofDouble b.xmax), ("xmin", .ofDouble b.xmin), ("ymax", .ofDouble b.ymax),
     ("ymin", .ofDouble b.ymin)]

namespace Patch

/-- A statistic of the dimension with a name; none where the patch has no summary. -/
def statistic (p : Patch) (name : String) (s : Statistic) : Except Fault (Option Double) := do
  let d ← p.schema.dimensionNamed name
  return p.summary.map fun summary => (summary.get s).value d

/-- Whether the rectangles of two patches of one schema overlap or touch. -/
def intersects (p q : Patch) : Except Fault Bool :=
  if p.schema.pcid ≠ q.schema.pcid then
    .error (.incomparableSchemas p.schema.pcid q.schema.pcid)
  else .ok (p.bounds.intersects q.bounds)

/-- The modes of the columns, for a patch that has columns. -/
def modes? : Patch → Option (List Mode)
  | .columns p => some (p.columns.map Column.mode)
  | _ => none

/-- The document of a patch. -/
def toJson (p : Patch) : Json :=
  .ofMembers
    [("bounds", if p.bounds.isEmpty then .null else p.bounds.toJson),
     ("compressions", .ofOption (fun modes => .array (modes.map (.ofString ·.key))) p.modes?),
     ("npoints", .ofNat p.count), ("pcid", .ofNat p.schema.pcid.toNat),
     ("representation", .ofString p.form.name), ("serialized_size", .ofNat p.wireSize)]

/-- The text of a patch. -/
def text (p : Patch) : String := p.toJson.compact

end Patch

end PointPatch
