/-
PointPatch/Proofs/Patch/Transposition.lean

Rows split into columns, and columns put together to rows.

The row in some place of woven columns has the elements of the columns in that
place, one after another (`flatten_weave`).  The elements of columns gathered
from rows are the fields of these rows (`element_gather`).  So weaving undoes
gathering (`wovenRows_gather`): a row is its fields, one after another.
-/
import PointPatch.Patch.Columns
import PointPatch.Proofs.Column.Storage
import PointPatch.Proofs.Schema.Layout

namespace PointPatch

/-! ### Elements -/

namespace Column

/-- The element of a raw column in a place. -/
def element (c : Column) (i : Nat) : List UInt8 := slice (i * c.type.size) c.type.size c.payload

theorem chunks_payload {c : Column} {count : Nat} (h : c.payload.length = count * c.type.size) :
    chunks c.type.size c.payload = (List.range count).map c.element := by
  rw [chunks_eq_map_slice, h, Nat.mul_div_cancel _ c.type.size_pos]
  rfl

theorem payload_eq_flatMap_element {c : Column} {count : Nat}
    (h : c.payload.length = count * c.type.size) :
    c.payload = (List.range count).flatMap c.element := by
  have hwhole : c.payload.length % c.type.size = 0 := by rw [h, Nat.mul_mod_left]
  rw [List.flatMap_def, ← chunks_payload h, flatten_chunks hwhole]

theorem length_element {c : Column} {count i : Nat}
    (h : c.payload.length = count * c.type.size) (hi : i < count) :
    (c.element i).length = c.type.size := by
  have hle : (i + 1) * c.type.size ≤ count * c.type.size := Nat.mul_le_mul_right _ hi
  rw [Nat.succ_mul, ← h] at hle
  exact length_slice hle

/-- Rows, one for each element of a column, with the elements put in. -/
theorem scatter_map_range {c : Column} {count : Nat}
    (h : c.payload.length = count * c.type.size) (r : Nat → List UInt8) (byteOffset : Nat) :
    c.scatter ((List.range count).map r) byteOffset
      = (List.range count).map fun i => overwrite byteOffset (c.element i) (r i) := by
  have hdrop : ((List.range count).map r).drop ((List.range count).map c.element).length = [] := by
    rw [List.length_map, List.length_range]
    exact List.drop_eq_nil_of_le (by rw [List.length_map, List.length_range])
  rw [scatter, chunks_payload h, hdrop, List.append_nil, List.zip_map', List.map_map]
  rfl

theorem length_payload_gather {schema : Schema} (hb : schema.Built) {d : Dimension}
    (hd : d ∈ schema.dimensions) (rows : List UInt8) :
    (gather d.type rows schema.size d.byteOffset).payload.length
      = rows.length / schema.size * d.size := by
  refine (length_flatMap_of_forall fun row hrow => ?_).trans (by rw [length_chunks])
  exact Schema.length_field hb (length_of_mem_chunks hrow) hd

/-- The elements of a gathered column are the fields of the rows. -/
theorem element_gather {schema : Schema} (hb : schema.Built) {d : Dimension}
    (hd : d ∈ schema.dimensions) (rows : List UInt8) {i : Nat}
    (hi : i < rows.length / schema.size) :
    (gather d.type rows schema.size d.byteOffset).element i
      = d.field (slice (i * schema.size) schema.size rows) := by
  have hfield : ∀ row ∈ chunks schema.size rows, (d.field row).length = d.size :=
    fun row hrow => Schema.length_field hb (length_of_mem_chunks hrow) hd
  have hpieces : chunks d.size (gather d.type rows schema.size d.byteOffset).payload
      = (chunks schema.size rows).map d.field := chunks_flatMap d.type.size_pos hfield
  have helements := chunks_payload (length_payload_gather hb hd rows)
  rw [chunks_eq_map_slice schema.size rows, List.map_map] at hpieces
  exact List.map_inj_left.1 (helements.symm.trans hpieces) i (List.mem_range.2 hi)

end Column

namespace ColumnPatch

/-! ### Weaving -/

/-- The rows of some raw columns: the elements in each place, one after another. -/
def wovenRows (count : Nat) (columns : List Column) : List UInt8 :=
  (List.range count).flatMap fun i => columns.flatMap fun c => c.element i

/-- Whether a raw column can stand for a dimension in a patch with so many points. -/
def Fits (count : Nat) (d : Dimension) (c : Column) : Prop :=
  c.type = d.type ∧ c.count = count ∧ c.payload.length = count * d.size

variable {schema : Schema} {count : Nat} {columns : List Column}

/-- A woven row has an element for each dimension. -/
theorem length_wovenRow (h : schema.dimensions.Forall₂ (Fits count) columns) {i : Nat}
    (hi : i < count) : (columns.flatMap fun c => c.element i).length = schema.size := by
  rw [← Schema.width_dimensions]
  generalize schema.dimensions = ds at h ⊢
  induction h with
  | nil => rfl
  | cons hfits _ ih =>
    obtain ⟨htype, -, hlength⟩ := hfits
    rw [List.flatMap_cons, List.length_append, ih, Schema.width_cons, Dimension.size, ← htype,
      Column.length_element (by rw [hlength, Dimension.size, htype]) hi]

theorem length_wovenRows (h : schema.dimensions.Forall₂ (Fits count) columns) :
    (wovenRows count columns).length = schema.size * count := by
  have hrow : ∀ i ∈ List.range count,
      (columns.flatMap fun c => c.element i).length = schema.size :=
    fun i hi => length_wovenRow h (List.mem_range.1 hi)
  rw [wovenRows, length_flatMap_of_forall hrow, List.length_range, Nat.mul_comm]

/-- Putting in the elements of several columns, one column after another. -/
theorem foldl_scatter {xs : List (Dimension × Column)}
    (h : ∀ x ∈ xs, x.2.payload.length = count * x.2.type.size) (r : Nat → List UInt8) :
    xs.foldl (fun rows x => x.2.scatter rows x.1.byteOffset) ((List.range count).map r)
      = (List.range count).map fun i =>
          xs.foldl (fun row x => overwrite x.1.byteOffset (x.2.element i) row) (r i) := by
  induction xs generalizing r with
  | nil => rfl
  | cons x xs ih =>
    have hx := h x List.mem_cons_self
    rw [List.foldl_cons, Column.scatter_map_range hx,
      ih fun y hy => h y (List.mem_cons_of_mem x hy)]
    rfl

theorem flatMap_zip_snd {ds : List Dimension} (h : ds.length = columns.length)
    (f : Column → List UInt8) : (ds.zip columns).flatMap (fun x => f x.2) = columns.flatMap f := by
  have hsnd : (ds.zip columns).map Prod.snd = columns := List.map_snd_zip (Nat.le_of_eq h.symm)
  rw [← List.flatMap_map, hsnd]

/-- Woven columns are rows with the elements in each place, one after another. -/
theorem flatten_weave (hb : schema.Built)
    (h : schema.dimensions.Forall₂ (Fits count) columns) :
    (weave schema count columns).flatten = wovenRows count columns := by
  rcases Nat.eq_zero_or_pos schema.size with hsize | hsize
  · have hnil := Schema.dimensions_eq_nil_of_size hsize
    rw [hnil, List.forall₂_nil_left_iff] at h
    rw [weave, hnil, hsize, h, wovenRows]
    simp
  have hlen := h.length_eq
  have hfits : ∀ x ∈ schema.dimensions.zip columns, Fits count x.1 x.2 :=
    fun x hx => List.forall₂_zip h hx
  have hdims : (schema.dimensions.zip columns).map Prod.fst = schema.dimensions :=
    List.map_fst_zip (Nat.le_of_eq hlen)
  -- the rows are zeros in the beginning
  have hzero : chunks schema.size (List.replicate (schema.size * count) (0 : UInt8))
      = (List.range count).map fun _ => List.replicate schema.size 0 := by
    rw [chunks_eq_map_slice, List.length_replicate, Nat.mul_div_cancel_left _ hsize]
    refine List.map_congr_left ?_
    intro i hi
    have hle : (i + 1) * schema.size ≤ count * schema.size :=
      Nat.mul_le_mul_right _ (List.mem_range.1 hi)
    rw [Nat.succ_mul, Nat.mul_comm count] at hle
    rw [slice, List.drop_replicate, List.take_replicate, Nat.min_eq_left (by omega)]
  have hpayload : ∀ x ∈ schema.dimensions.zip columns,
      x.2.payload.length = count * x.2.type.size := by
    intro x hx
    obtain ⟨htype, -, hlength⟩ := hfits x hx
    rw [hlength, Dimension.size, htype]
  rw [weave, hzero, foldl_scatter hpayload, wovenRows, List.flatMap_def]
  -- row by row from here on
  refine congrArg List.flatten (List.map_congr_left fun i hi => ?_)
  -- in each row every field is overwritten, so nothing is left of the zeros
  have hplaced : Schema.Placed 0 ((schema.dimensions.zip columns).map Prod.fst) := by
    rw [hdims]
    exact hb.placed
  have hwidth : (List.replicate schema.size (0 : UInt8)).length
      = Schema.width ((schema.dimensions.zip columns).map Prod.fst) := by
    rw [hdims, List.length_replicate, Schema.width_dimensions]
  have hrow := Schema.foldl_overwrite_fields (f := fun x _ => x.2.element i) hplaced
    (fun x hx _ _ => by
      rw [Column.length_element (hpayload x hx) (List.mem_range.1 hi), (hfits x hx).1,
        Dimension.size]) List.length_nil hwidth
  exact hrow.trans (flatMap_zip_snd hlen fun c => c.element i)

/-- The row in a place of woven columns. -/
theorem slice_wovenRows (h : schema.dimensions.Forall₂ (Fits count) columns) {i : Nat}
    (hi : i < count) :
    slice (i * schema.size) schema.size (wovenRows count columns)
      = columns.flatMap fun c => c.element i := by
  rcases Nat.eq_zero_or_pos schema.size with hsize | hsize
  · have hnil := Schema.dimensions_eq_nil_of_size hsize
    rw [hnil, List.forall₂_nil_left_iff] at h
    rw [h, hsize, slice]
    rfl
  have hpieces : chunks schema.size (wovenRows count columns)
      = (List.range count).map fun i => columns.flatMap fun c => c.element i :=
    chunks_flatMap hsize fun i hi => length_wovenRow h (List.mem_range.1 hi)
  rw [chunks_eq_map_slice, length_wovenRows h, Nat.mul_div_cancel_left _ hsize] at hpieces
  exact List.map_inj_left.1 hpieces i (List.mem_range.2 hi)

/-- The fields of woven rows are the elements of the columns. -/
theorem field_slice_wovenRows (hb : schema.Built)
    (h : schema.dimensions.Forall₂ (Fits count) columns) {d : Dimension} {c : Column}
    (hc : (d, c) ∈ schema.dimensions.zip columns) {i : Nat} (hi : i < count) :
    d.field (slice (i * schema.size) schema.size (wovenRows count columns)) = c.element i := by
  have hplaced : Schema.Placed 0 ((schema.dimensions.zip columns).map Prod.fst) := by
    rw [List.map_fst_zip (Nat.le_of_eq h.length_eq)]
    exact hb.placed
  have hlength : ∀ x ∈ schema.dimensions.zip columns, (x.2.element i).length = x.1.size := by
    rintro ⟨d, c⟩ hx
    obtain ⟨htype, -, hlength⟩ := List.forall₂_zip h hx
    rw [Column.length_element (by rw [hlength, Dimension.size, htype]) hi, Dimension.size, htype]
  rw [slice_wovenRows h hi, ← flatMap_zip_snd h.length_eq]
  exact Schema.field_flatMap_of_map hplaced List.length_nil hlength hc

/-! ### Gathering -/

theorem fits_gather (hb : schema.Built) {rows : List UInt8}
    (hrows : rows.length / schema.size = count) :
    schema.dimensions.Forall₂ (Fits count)
      (schema.dimensions.map fun d => Column.gather d.type rows schema.size d.byteOffset) := by
  rw [List.forall₂_map_right_iff, List.forall₂_same]
  intro d hd
  exact ⟨rfl, hrows, hrows ▸ Column.length_payload_gather hb hd rows⟩

/-- Weaving columns that have been gathered from rows gives the rows. -/
theorem wovenRows_gather (hb : schema.Built) {rows : List UInt8}
    (hrows : rows.length % schema.size = 0) :
    wovenRows (rows.length / schema.size)
        (schema.dimensions.map fun d => Column.gather d.type rows schema.size d.byteOffset)
      = rows := by
  have hfields : ∀ i ∈ List.range (rows.length / schema.size),
      ((schema.dimensions.map fun d => Column.gather d.type rows schema.size d.byteOffset).flatMap
        fun c => c.element i) = slice (i * schema.size) schema.size rows := by
    intro i hi
    rw [List.flatMap_map, List.flatMap_congr fun d hd =>
      Column.element_gather hb hd rows (List.mem_range.1 hi)]
    have hmem : slice (i * schema.size) schema.size rows ∈ chunks schema.size rows := by
      rw [chunks_eq_map_slice]
      exact List.mem_map_of_mem hi
    exact Schema.flatMap_field hb.placed List.length_nil (length_of_mem_chunks hmem)
  rw [wovenRows, List.flatMap_congr hfields, List.flatMap_def, ← chunks_eq_map_slice,
    flatten_chunks hrows]

/-- Gathering from woven columns gives the columns. -/
theorem gather_wovenRows (hb : schema.Built) (h : schema.dimensions.Forall₂ (Fits count) columns)
    (hraw : ∀ c ∈ columns, c.mode = .raw) :
    (schema.dimensions.map fun d =>
      Column.gather d.type (wovenRows count columns) schema.size d.byteOffset) = columns := by
  rw [← List.forall₂_eq_eq_eq, List.forall₂_map_left_iff]
  refine List.forall₂_iff_zip.2 ⟨h.length_eq, ?_⟩
  intro d c hc
  have hd : d ∈ schema.dimensions := (List.of_mem_zip hc).1
  have hmode : c.mode = .raw := hraw c (List.of_mem_zip hc).2
  obtain ⟨htype, hcount, hlength⟩ := List.forall₂_zip h hc
  -- there are as many rows as points, because a row has at least the bytes of this field
  have hrows : (wovenRows count columns).length / schema.size = count := by
    have hpos : 0 < schema.size :=
      Nat.lt_of_lt_of_le d.type.size_pos (Schema.size_le_of_mem hd)
    rw [length_wovenRows h, Nat.mul_div_cancel_left count hpos]
  have hpayload : (Column.gather d.type (wovenRows count columns) schema.size d.byteOffset).payload
      = c.payload := by
    show (chunks schema.size (wovenRows count columns)).flatMap d.field = c.payload
    rw [chunks_eq_map_slice, hrows, List.flatMap_map,
      List.flatMap_congr fun i hi => field_slice_wovenRows hb h hc (List.mem_range.1 hi)]
    rw [Dimension.size, ← htype] at hlength
    exact (Column.payload_eq_flatMap_element hlength).symm
  obtain ⟨type, count', mode, payload⟩ := c
  simp only at htype hcount hmode hpayload
  subst htype hcount hmode hpayload
  exact congrArg (Column.mk d.type · .raw _) hrows

end ColumnPatch

end PointPatch
