/-
PointPatch/Patch/Bounds.lean

The rectangle that the points of a patch lie in.

The empty rectangle has its corners swapped: the least coordinates are the
largest number and the greatest ones the smallest.  Widening it by a point
gives the point, and it meets no rectangle.
-/
import PointPatch.Double.Basic

namespace PointPatch

/-- A rectangle. -/
structure Bounds where
  xmin : Double
  xmax : Double
  ymin : Double
  ymax : Double
deriving DecidableEq, Repr

namespace Bounds

/-- The rectangle without points. -/
def empty : Bounds where
  xmin := .largest
  xmax := .lowest
  ymin := .largest
  ymax := .lowest

/-- Whether a rectangle has its corners swapped. -/
def isEmpty (b : Bounds) : Bool := b.xmax.lt b.xmin || b.ymax.lt b.ymin

/-- The rectangle widened by a point; a NaN widens nothing. -/
def expand (b : Bounds) (x y : Double) : Bounds where
  xmin := b.xmin.min x
  xmax := b.xmax.max x
  ymin := b.ymin.min y
  ymax := b.ymax.max y

/-- The rectangle around two rectangles. -/
def merge (b c : Bounds) : Bounds where
  xmin := b.xmin.min c.xmin
  xmax := b.xmax.max c.xmax
  ymin := b.ymin.min c.ymin
  ymax := b.ymax.max c.ymax

/-- Whether two rectangles overlap or touch. -/
def intersects (b c : Bounds) : Bool :=
  !(c.xmax.lt b.xmin || b.xmax.lt c.xmin || c.ymax.lt b.ymin || b.ymax.lt c.ymin)

end Bounds

end PointPatch
