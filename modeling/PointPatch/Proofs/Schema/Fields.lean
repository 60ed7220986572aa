/-
PointPatch/Proofs/Schema/Fields.lean

Values in the fields of a row.

Writing a value into every field of an empty row gives the row of what the
fields store (`Schema.rowOf_eq`).  A value that is written into one field of a
row is what this field stores from then on (`Schema.field_write`), and the
other fields store what they did (`Schema.field_write_of_ne`).  Since a row is
nothing but its fields (`Schema.row_ext`), it does not matter in which order
values have been written: what counts is which field stores which value.
-/
import PointPatch.Proofs.Schema.Tiling

namespace PointPatch

/-- The bytes that store a number in a field. -/
def Dimension.stored (d : Dimension) (value : Double) : List UInt8 :=
  d.type.write ((value - d.offset) / d.scale)

@[simp] theorem Dimension.length_stored (d : Dimension) (value : Double) :
    (d.stored value).length = d.size := by
  simp [stored, size]

/-- A field that has been left alone has the bytes that it had. -/
theorem Field.Leaves.field_eq {d : Dimension} {row row' : List UInt8}
    (h : (Field.of d).Leaves row row') : d.field row' = d.field row := by
  apply List.ext_getElem?
  intro k
  rw [Dimension.field, Dimension.field, slice, slice, List.getElem?_take, List.getElem?_take,
    List.getElem?_drop, List.getElem?_drop]
  split
  · rename_i hk
    refine h.bytes_eq _ ?_
    rw [Field.places, List.mem_range'_1]
    exact ⟨Nat.le_add_right _ _, Nat.add_lt_add_left hk _⟩
  · rfl

/-! ### Rows made of values -/

namespace Schema

variable {s : Schema} {d d' : Dimension} {i j : Nat} {row row' : List UInt8}

/-- Writing some bytes into every field of a row gives the row of these bytes. -/
theorem foldl_overwrite_zeroRow (hb : s.Built) {f : Dimension → List UInt8}
    (hf : ∀ d ∈ s.dimensions, (f d).length = d.size) :
    s.dimensions.foldl (fun row d => overwrite d.byteOffset (f d) row) s.zeroRow
      = s.dimensions.flatMap f := by
  have hplaced : Placed 0 (s.dimensions.map id) := by
    rw [List.map_id]
    exact hb.placed
  have hwidth : s.zeroRow.length = width (s.dimensions.map id) := by
    rw [List.map_id, zeroRow, List.length_replicate, width_dimensions]
  exact foldl_overwrite_fields (f := fun d _ => f d) hplaced (fun d hd _ _ => hf d hd)
    List.length_nil hwidth

theorem rowOf_eq (hb : s.Built) (value : Dimension → Double) :
    s.rowOf value = s.dimensions.flatMap fun d => d.stored (value d) :=
  foldl_overwrite_zeroRow hb fun d _ => d.length_stored (value d)

theorem length_rowOf (hb : s.Built) (value : Dimension → Double) :
    (s.rowOf value).length = s.size := by
  rw [rowOf_eq hb, length_flatMap_fields fun d _ => d.length_stored (value d), width_dimensions]

/-- Each field of a row of values stores the value of its own dimension. -/
theorem field_rowOf (hb : s.Built) (value : Dimension → Double) (hd : d ∈ s.dimensions) :
    d.field (s.rowOf value) = d.stored (value d) := by
  rw [rowOf_eq hb]
  exact field_flatMap hb.placed List.length_nil (fun d _ => d.length_stored (value d)) hd

/-! ### Values written one by one -/

/-- Rows with the same fields are the same. -/
theorem row_ext (hb : s.Built) (hrow : row.length = s.size) (hrow' : row'.length = s.size)
    (h : ∀ d ∈ s.dimensions, d.field row = d.field row') : row = row' := by
  have hfields : s.dimensions.flatMap (fun d => d.field row) = row :=
    flatMap_field hb.placed List.length_nil hrow
  have hfields' : s.dimensions.flatMap (fun d => d.field row') = row' :=
    flatMap_field hb.placed List.length_nil hrow'
  rw [← hfields, ← hfields', List.flatMap_congr h]

theorem length_write (hb : s.Built) (hd : d ∈ s.dimensions) (hrow : row.length = s.size)
    (v : Double) : (d.write v row).length = s.size := by
  have hend := hb.placed.end_le hd
  rw [Nat.zero_add, width_dimensions, ← hrow, ← d.length_stored v] at hend
  exact (length_overwrite hend).trans hrow

/-- A field stores the value that has been written into it. -/
theorem field_write (hb : s.Built) (hd : d ∈ s.dimensions) (hrow : row.length = s.size)
    (v : Double) : d.field (d.write v row) = d.stored v := by
  have hend := hb.placed.end_le hd
  rw [Nat.zero_add, width_dimensions, ← hrow] at hend
  have hfront : (row.take d.byteOffset).length = d.byteOffset := by
    rw [List.length_take]
    omega
  exact field_append_append hfront (d.length_stored v)

/-- The other fields store what they did. -/
theorem field_write_of_ne (hb : s.Built) (hij : i ≠ j) (hd : s.dimension? i = some d)
    (hd' : s.dimension? j = some d') (hrow : row.length = s.size) (v : Double) :
    d'.field (d.write v row) = d'.field row := by
  have hf : (Ledger.of s).field? i = some (Field.of d) := by rw [Ledger.field?_of, hd]; rfl
  have hg : (Ledger.of s).field? j = some (Field.of d') := by rw [Ledger.field?_of, hd']; rfl
  exact ((Ledger.tiled_of_built hb).leaves_write hij hf hg hrow v).field_eq

end Schema

end PointPatch
