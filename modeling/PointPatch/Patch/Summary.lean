/-
PointPatch/Patch/Summary.lean

The least, the greatest and the mean value of every dimension of some rows.

The three are kept as points, so a value goes through the type of its
dimension: the mean of integers is a rounded one.
-/
import PointPatch.Json.Printer
import PointPatch.Point

namespace PointPatch

/-- The three values that a summary has for every dimension. -/
inductive Statistic where
  | min
  | max
  | avg
deriving DecidableEq, Repr

/-- The statistic that a word asks for. -/
def Statistic.ofName (name : String) : Except Fault Statistic :=
  if Text.sameWord name "min" then .ok .min
  else if Text.sameWord name "max" then .ok .max
  else if Text.sameWord name "avg" then .ok .avg
  else .error (.unknownStatistic name)

/-- Least, greatest and mean values, as points. -/
structure Summary where
  min : Point
  max : Point
  avg : Point
deriving DecidableEq, Repr

namespace Summary

/-- The least of some values. -/
def least (values : List Double) : Double := values.foldl Double.min Double.largest

/-- The greatest of some values. -/
def greatest (values : List Double) : Double := values.foldl Double.max Double.lowest

/-- The mean of some values. -/
def mean (values : List Double) : Double :=
  values.foldl (· + ·) Double.zero / Double.ofNat values.length

/-- The point that stores, for every dimension, a number made from its values in some rows. -/
def collect (schema : Schema) (rows : List (List UInt8)) (f : List Double → Double) : Point :=
  { schema, data := schema.rowOf fun d => f (rows.map d.read) }

/-- The summary of a row buffer; none where there is no row. -/
def compute (schema : Schema) (buffer : List UInt8) : Option Summary :=
  if schema.size = 0 ∨ buffer.length < schema.size then none
  else
    let rows := chunks schema.size buffer
    some
      { min := collect schema rows least
        max := collect schema rows greatest
        avg := collect schema rows mean }

/-- The point of a statistic. -/
def get (s : Summary) : Statistic → Point
  | .min => s.min
  | .max => s.max
  | .avg => s.avg

/-- The point of another schema in which every dimension has the bytes that the dimension of the
same name has in this one. -/
def carryOver (subset : Schema) (p : Point) : Except Fault Point := do
  let data ← subset.dimensions.foldlM (fun row d => do
      let source ← p.schema.dimensionNamed d.name
      return overwrite d.byteOffset (source.field p.data) row)
    subset.zeroRow
  return { schema := subset, data }

/-- The summary of the dimensions that a subset of the schema has. -/
def restrict (s : Summary) (subset : Schema) : Except Fault Summary := do
  let min ← carryOver subset s.min
  let max ← carryOver subset s.max
  let avg ← carryOver subset s.avg
  return { min, max, avg }

/-- The document of a summary. -/
def toJson (s : Summary) : Json :=
  let values (p : Point) : Json := .array (p.values.map .ofDouble)
  .ofMembers
    [("avg", values s.avg), ("max", values s.max), ("min", values s.min),
     ("pcid", .ofNat s.min.schema.pcid.toNat)]

/-- The text of a summary. -/
def text (s : Summary) : String := s.toJson.compact

end Summary

end PointPatch
