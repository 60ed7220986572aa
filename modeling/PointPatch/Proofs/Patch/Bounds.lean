/-
PointPatch/Proofs/Patch/Bounds.lean

Rectangles that grow with their rows.

The rectangle around some rows is that around nothing, widened by one row after
another (`Bounds.ofRows_eq_foldl`), so a row behind others widens theirs
(`Bounds.ofRows_append`).  A point that is added to a patch has its coordinates
looked up by itself, and widens the rectangle as its row does
(`RowPatch.bounds_of_add`); where one of its coordinates is not known, neither
is that of the row.
-/
import PointPatch.Proofs.Machine.Rows
import PointPatch.Proofs.Patch.Consistency

namespace PointPatch

namespace Bounds

variable {s : Schema} {rows row : List UInt8} {count : Nat}

/-- The rectangle widened by the coordinates of a row, where both are known. -/
def including (s : Schema) (b : Bounds) (row : List UInt8) : Bounds :=
  match s.xyDimensions? with
  | some (x, y) => b.expand (x.read row) (y.read row)
  | none => b

theorem ofRows_eq_foldl (s : Schema) (buffer : List UInt8) :
    ofRows s buffer = (chunks s.size buffer).foldl (including s) empty := by
  rw [ofRows]
  unfold including
  cases s.xyDimensions? with
  | some xy => rfl
  | none =>
    show empty = (chunks s.size buffer).foldl (fun b _ => b) empty
    induction chunks s.size buffer with
    | nil => rfl
    | cons row rows ih => exact ih

/-- A row behind others widens their rectangle. -/
theorem ofRows_append (hrows : rows.length = s.size * count) (hrow : row.length = s.size) :
    ofRows s (rows ++ row) = (ofRows s rows).including s row := by
  rcases Nat.eq_zero_or_pos s.size with hsize | hsize
  · -- rows without bytes have no coordinates
    have hnone : s.xyDimensions? = none := by
      rcases hxy : s.xyDimensions? with - | ⟨x, y⟩
      · rfl
      · have hx := (Machine.mem_of_xyDimensions? hxy).1
        rw [Schema.dimensions_eq_nil_of_size hsize] at hx
        cases hx
    rw [ofRows, ofRows, including, hnone]
  · rw [ofRows_eq_foldl, ofRows_eq_foldl, chunks_append_piece hsize hrows hrow, List.foldl_append]
    rfl

end Bounds

namespace Point

variable (point : Point)

/-- A value is known where the slot is filled. -/
theorem toOption_valueAt (i : Nat) :
    (point.valueAt i).toOption = (point.schema.dimension? i).map point.value := by
  rw [valueAt, Schema.dimensionAt]
  cases point.schema.dimension? i <;> rfl

theorem toOption_x :
    point.x.toOption = (point.schema.xPosition.bind point.schema.dimension?).map point.value := by
  rw [x, xPosition]
  cases point.schema.xPosition with
  | none => rfl
  | some i => exact point.toOption_valueAt i

theorem toOption_y :
    point.y.toOption = (point.schema.yPosition.bind point.schema.dimension?).map point.value := by
  rw [y, yPosition]
  cases point.schema.yPosition with
  | none => rfl
  | some i => exact point.toOption_valueAt i

end Point

/-- A point that is added widens the bounds by its own coordinates as its row does. -/
theorem RowPatch.bounds_of_add {p q : RowPatch} {point : Point} (h : p.add point = .ok q) :
    q.bounds = p.bounds.including point.schema point.data := by
  rw [add, check_eq_ok_iff] at h
  obtain ⟨-, h⟩ := h
  obtain ⟨r, hr, h⟩ := bind_eq_ok_iff.1 h
  obtain ⟨capacity, rfl, -⟩ := capacity_of_makeRoom hr
  cases h
  dsimp only
  have hx := point.toOption_x
  have hy := point.toOption_y
  rw [Bounds.including, Schema.xyDimensions?]
  generalize point.x = px at hx
  generalize point.y = py at hy
  rcases px with fault | x
  · -- the first coordinate is not known
    have hnone := Option.map_eq_none_iff.1 hx.symm
    rw [hnone]
    rfl
  obtain ⟨dx, hdx, rfl⟩ := Option.map_eq_some_iff.1 hx.symm
  rcases py with fault | y
  · -- the second coordinate is not known
    have hnone := Option.map_eq_none_iff.1 hy.symm
    rw [hdx, hnone]
    rfl
  obtain ⟨dy, hdy, rfl⟩ := Option.map_eq_some_iff.1 hy.symm
  rw [hdx, hdy]
  rfl

end PointPatch
