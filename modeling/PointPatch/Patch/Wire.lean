/-
PointPatch/Patch/Wire.lean

Patches as messages, in either byte order.

A message is an opening and what the form of the patch has to say.  Bounds and
summary do not travel: they are computed anew from the rows when a message is
read, so a message whose rows cannot be had is refused.
-/
import PointPatch.Patch.Conversion
import PointPatch.Wire.Opening

namespace PointPatch

namespace Patch

/-- The message of a patch in a byte order. -/
def toWire (e : Engine) (order : ByteOrder) (p : Patch) : Except Fault (List UInt8) := do
  let payload ← match p with
    | .rows p => .ok (p.payload order)
    | .columns p => p.payload e order
    | .blob p => .ok (p.payload order)
  return (Opening.mk order p.schema.pcid p.form).bytes ++ payload

/-- The message of a patch in the byte order of the settings. -/
def toDefaultWire (e : Engine) (p : Patch) : Except Fault (List UInt8) :=
  p.toWire e e.config.order

/-- Reads a patch from its message. -/
def ofWire (e : Engine) (schema : Schema) (message : List UInt8) : Except Fault Patch := do
  let (opening, cursor) ← Opening.read message
  if opening.pcid ≠ schema.pcid then throw (.schemaMismatch opening.pcid schema.pcid)
  match opening.form with
  | .rows => return .rows (← RowPatch.ofPayload schema opening.order cursor.rest)
  | .columns => summarise e (.columns (← ColumnPatch.ofPayload e schema opening.order cursor))
  | .blob => summarise e (.blob (← BlobPatch.ofPayload schema opening.order cursor))

end Patch

end PointPatch
