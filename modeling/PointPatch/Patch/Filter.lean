/-
PointPatch/Patch/Filter.lean

Points picked out by the value of one dimension.  What is left is held as
rows, in the old order, with bounds and summary of its own; no point at all
may be left.
-/
import PointPatch.Patch.Conversion

namespace PointPatch

/-- A condition on a value. -/
inductive Condition where
  /-- Less than a bound. -/
  | below (bound : Double)
  /-- Greater than a bound. -/
  | above (bound : Double)
  /-- The same number as another. -/
  | equalTo (value : Double)
  /-- In the closed range between two bounds, given in either order. -/
  | between (one other : Double)
deriving DecidableEq, Repr

/-- Whether a value meets a condition. A NaN meets none. -/
def Condition.holds (c : Condition) (v : Double) : Bool :=
  match c with
  | below bound => v.lt bound
  | above bound => bound.lt v
  | equalTo value => v.eq value
  | between one other =>
    if one.le other then one.le v && v.le other else other.le v && v.le one

namespace RowPatch

/-- The rows in which a dimension meets a condition. -/
def rowsWhere (p : RowPatch) (d : Dimension) (c : Condition) : List UInt8 :=
  ((chunks p.schema.size p.rows).filter fun row => c.holds (d.read row)).flatten

end RowPatch

namespace Patch

/-- The points whose value of a dimension meets a condition. -/
def filter (e : Engine) (name : String) (c : Condition) (p : Patch) : Except Fault RowPatch := do
  let d ← p.schema.dimensionNamed name
  let raw ← p.toRows e
  RowPatch.ofRows raw.schema (raw.rowsWhere d c)

/-- What is reported when points are picked out. -/
def filterNotices (e : Engine) (name : String) (c : Condition) (p : Patch) : List Notice :=
  match p.schema.dimensionNamed name, p.toRows e, p.filter e name c with
  | .ok d, .ok raw, .ok q => [.filtered d.name raw.count q.count]
  | _, _, _ => []

end Patch

end PointPatch
