/-
PointPatch/Point.lean

Single records, each together with its schema.

A point either owns its bytes or is a view of bytes that belong to something
else; writing into a view makes it own a copy.  Values are looked up by slot
or by name.  A point travels as an opening and the bytes of the record.
-/
import PointPatch.Schema.Basic
import PointPatch.Wire.Opening

namespace PointPatch

/-- A record of a schema. -/
structure Point where
  /-- The layout of the record. -/
  schema : Schema
  /-- The record. -/
  data : List UInt8
  /-- Whether the bytes belong to something else. -/
  isView : Bool := false
deriving DecidableEq, Repr

namespace Point

/-! ### Construction -/

/-- The point whose bytes are all zero. -/
def zero (schema : Schema) : Point := { schema, data := schema.zeroRow }

/-- The point with the given values, one for each slot. The values are paired up with the filled
slots in order. -/
def ofValues (schema : Schema) (values : List Double) : Except Fault Point :=
  if values.length ≠ schema.slotCount then
    .error (.valueCount schema.pcid schema.slotCount values.length)
  else
    .ok { schema
          data := (schema.dimensions.zip values).foldl (fun row dv => dv.1.write dv.2 row)
            schema.zeroRow }

/-- A view of a record. -/
def view (schema : Schema) (data : List UInt8) : Except Fault Point :=
  if data.length ≠ schema.size then .error (.pointData data.length schema.pcid schema.size)
  else .ok { schema, data, isView := true }

/-- The point with bytes of its own. -/
def own (p : Point) : Point := { p with isView := false }

/-! ### Values -/

/-- The value of a dimension. -/
def value (p : Point) (d : Dimension) : Double := d.read p.data

/-- The point with the value of a dimension replaced. -/
def withValue (p : Point) (d : Dimension) (v : Double) : Point :=
  { p with data := d.write v p.data, isView := false }

/-- The value in a slot. -/
def valueAt (p : Point) (position : Nat) : Except Fault Double :=
  (p.schema.dimensionAt position).map p.value

/-- The value with a name. -/
def valueNamed (p : Point) (name : String) : Except Fault Double :=
  (p.schema.dimensionNamed name).map p.value

/-- The point with the value in a slot replaced. -/
def setAt (p : Point) (position : Nat) (v : Double) : Except Fault Point :=
  (p.schema.dimensionAt position).map fun d => p.withValue d v

/-- The point with the value of a name replaced. -/
def setNamed (p : Point) (name : String) (v : Double) : Except Fault Point :=
  (p.schema.dimensionNamed name).map fun d => p.withValue d v

/-- The values of all dimensions, in slot order. -/
def values (p : Point) : List Double := p.schema.dimensions.map p.value

/-! ### Coordinates -/

/-- The slot of the X coordinate, or a fault. -/
def xPosition (p : Point) : Except Fault Nat :=
  match p.schema.xPosition with
  | some position => .ok position
  | none => .error (.dimensionNotFound "X")

/-- The slot of the Y coordinate, or a fault. -/
def yPosition (p : Point) : Except Fault Nat :=
  match p.schema.yPosition with
  | some position => .ok position
  | none => .error (.dimensionNotFound "Y")

/-- The X coordinate. -/
def x (p : Point) : Except Fault Double := do p.valueAt (← p.xPosition)

/-- The Y coordinate. -/
def y (p : Point) : Except Fault Double := do p.valueAt (← p.yPosition)

/-- The point with its X coordinate replaced. -/
def setX (p : Point) (v : Double) : Except Fault Point := do p.setAt (← p.xPosition) v

/-- The point with its Y coordinate replaced. -/
def setY (p : Point) (v : Double) : Except Fault Point := do p.setAt (← p.yPosition) v

/-! ### Messages -/

/-- The message of a point. -/
def toWire (p : Point) (order : ByteOrder) : List UInt8 :=
  Opening.shortBytes order p.schema.pcid
    ++ if order.isForeign then p.schema.flipRow p.data else p.data

/-- Reads a point from its message. -/
def ofWire (schema : Schema) (message : List UInt8) : Except Fault Point := do
  if message = [] then throw .emptyPointMessage
  let (order, pcid, cursor) ← Opening.readShort (.start message)
  if pcid ≠ schema.pcid then throw (.schemaMismatch pcid schema.pcid)
  let row := cursor.rest
  if row.length ≠ schema.size then
    throw (.pointPayload row.length schema.pcid schema.size)
  return { schema, data := if order.isForeign then schema.flipRow row else row }

end Point

/-- Points in order. -/
abbrev PointList := List Point

/-- The point at a place in a list. -/
def PointList.point (points : PointList) (index : Nat) : Except Fault Point :=
  match points[index]? with
  | some p => .ok p
  | none => .error (.indexOutOfRange index points.length)

end PointPatch
