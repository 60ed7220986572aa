/-
PointPatch/Patch/Basic.lean

Patches: many points of one schema, held together.

A patch is held as rows back to back, as one column for each dimension, or as
the blob of an outside codec.  All forms carry the same header, and every
conversion between them goes through the rows.
-/
import PointPatch.Column.Wire
import PointPatch.Patch.Bounds
import PointPatch.Patch.Summary

namespace PointPatch

/-- What patches of every form carry. -/
structure PatchHeader where
  /-- The layout of the points. -/
  schema : Schema
  /-- The number of points. -/
  count : Nat
  /-- The rectangle that the points lie in. -/
  bounds : Bounds := .empty
  /-- Least, greatest and mean values, if there are any. -/
  summary : Option Summary := none
deriving DecidableEq, Repr

/-- A patch held as rows. -/
structure RowPatch extends PatchHeader where
  /-- The rows back to back. -/
  rows : List UInt8
  /-- How many points there is room for. -/
  capacity : Nat
deriving DecidableEq, Repr

/-- A patch held as columns. -/
structure ColumnPatch extends PatchHeader where
  /-- One column for each dimension, in slot order. -/
  columns : List Column
deriving DecidableEq, Repr

/-- A patch held as a blob. -/
structure BlobPatch extends PatchHeader where
  /-- What the codec made of the rows. -/
  blob : List UInt8
deriving DecidableEq, Repr

/-- A patch of any form. -/
inductive Patch where
  | rows (p : RowPatch)
  | columns (p : ColumnPatch)
  | blob (p : BlobPatch)
deriving DecidableEq, Repr

namespace Patch

/-- The header of a patch. -/
def header : Patch → PatchHeader
  | rows p => p.toPatchHeader
  | columns p => p.toPatchHeader
  | blob p => p.toPatchHeader

/-- The patch with another header. -/
def withHeader (h : PatchHeader) : Patch → Patch
  | rows p => .rows { p with toPatchHeader := h }
  | columns p => .columns { p with toPatchHeader := h }
  | blob p => .blob { p with toPatchHeader := h }

/-- The layout of the points. -/
def schema (p : Patch) : Schema := p.header.schema

/-- The number of points. -/
def count (p : Patch) : Nat := p.header.count

/-- The rectangle that the points lie in. -/
def bounds (p : Patch) : Bounds := p.header.bounds

/-- Least, greatest and mean values, if there are any. -/
def summary (p : Patch) : Option Summary := p.header.summary

/-- The form that a patch is held in. -/
def form : Patch → Representation
  | rows _ => .rows
  | columns _ => .columns
  | blob _ => .blob

end Patch

end PointPatch
