/-
PointPatch/Proofs/Schema/Layout.lean

How the fields of a record lie.

Schemas are made by a few operations (`Built`), and all of them keep the
fields in slot order and without gaps (`Built.placed`).  So a record is its
fields one after another (`flatMap_field`), each field can be had from such a
row (`field_flatMap`), and changing one field after another changes each of
them by itself (`foldl_overwrite_fields`).  What turns around the fields of a
row, or of a buffer of rows, follows: doing it twice changes nothing.
-/
import PointPatch.Schema.Basic
import PointPatch.Proofs.Bytes.Pieces
import PointPatch.Proofs.Outcome
import Mathlib.Algebra.GroupWithZero.Nat
import Mathlib.Algebra.Order.BigOperators.Group.List
import Mathlib.Algebra.Order.Group.Nat

namespace PointPatch

namespace Schema

variable {s s' : Schema}

/-! ### The schemas that can be made -/

/-- The schemas that can be made: from empty slots, by filling slots, by looking for the
coordinates, and by choosing ids and the form of patches. -/
inductive Built : Schema → Prop
  | vacant (count : Nat) : Built (vacant count)
  | set {s s' : Schema} {d : Dimension} : Built s → s.set d = .ok s' → Built s'
  | resolveXY {s : Schema} : Built s → Built s.resolveXY
  | label {s : Schema} (pcid srid : UInt32) (target : Representation) :
      Built s → Built { s with pcid, srid, target }

theorem Built.setAll {ds : List Dimension} (h : s.Built) (hs : s.setAll ds = .ok s') :
    s'.Built :=
  foldlM_invariant (fun _ _ _ ht hset => ht.set hset) h hs

/-- A subset of the slots makes a schema that can be made. -/
theorem Built.subset {positions : List Nat} (hs : s.subset positions = .ok s') : s'.Built := by
  rw [Schema.subset] at hs
  obtain ⟨picked, hpicked, hs⟩ := bind_eq_ok_iff.1 hs
  cases hs
  have hstart := (Built.vacant positions.length).label s.pcid s.srid s.target
  refine Built.resolveXY (foldlM_invariant ?_ hstart hpicked)
  rintro t ⟨position, slot⟩ t' ht hstep
  simp only at hstep
  split at hstep
  · cases hstep
  · cases hstep
    exact ht
  · exact ht.set hstep

/-! ### Fields in order -/

/-- The fields of some dimensions lie one after another, beginning at `start`. -/
def Placed : Nat → List Dimension → Prop
  | _, [] => True
  | start, d :: ds => d.byteOffset = start ∧ Placed (start + d.size) ds

/-- The number of bytes that the fields of some dimensions take. -/
def width (ds : List Dimension) : Nat := (ds.map Dimension.size).sum

theorem width_dimensions (s : Schema) : width s.dimensions = s.size := rfl

@[simp] theorem width_nil : width [] = 0 := rfl

@[simp] theorem width_cons (d : Dimension) (ds : List Dimension) :
    width (d :: ds) = d.size + width ds := rfl

@[simp] theorem dimensions_vacant (count : Nat) : (vacant count).dimensions = [] := by
  simp [dimensions, vacant]

theorem placed_layOut (start : Nat) (slots : List (Option Dimension)) :
    Placed start ((layOut start slots).filterMap id) := by
  induction slots generalizing start with
  | nil => exact trivial
  | cons slot slots ih =>
    cases slot with
    -- an empty slot takes no bytes
    | none => exact ih start
    | some d => exact ⟨rfl, ih (start + d.size)⟩

/-- The fields of every schema lie one after another, in slot order. -/
theorem Built.placed (h : s.Built) : Placed 0 s.dimensions := by
  induction h with
  | vacant count =>
    rw [dimensions_vacant]
    exact trivial
  | @set s s' d _ hset _ =>
    rw [Schema.set] at hset
    split at hset
    · cases hset
    · cases hset
      exact placed_layOut 0 _
  | resolveXY _ ih => exact ih
  | label _ _ _ _ ih => exact ih

/-- A row without bytes has no fields. -/
theorem dimensions_eq_nil_of_size (h : s.size = 0) : s.dimensions = [] := by
  rw [← width_dimensions] at h
  rcases hds : s.dimensions with - | ⟨d, ds⟩
  · rfl
  · rw [hds, width_cons] at h
    have hpos : 0 < d.size := d.type.size_pos
    omega

theorem length_dimensions (h : s.isFilled = true) :
    s.dimensions.length = s.slotCount := by
  rw [isFilled, List.all_eq_true] at h
  rw [dimensions, slotCount]
  generalize s.slots = slots at h ⊢
  induction slots with
  | nil => rfl
  | cons slot slots ih =>
    obtain ⟨d, rfl⟩ := Option.isSome_iff_exists.1 (h slot List.mem_cons_self)
    show (slots.filterMap id).length + 1 = slots.length + 1
    rw [ih fun s hs => h s (List.mem_cons_of_mem _ hs)]

theorem length_dimensions_le (s : Schema) : s.dimensions.length ≤ s.slotCount :=
  List.length_filterMap_le id s.slots

theorem size_le_of_mem {d : Dimension} (hd : d ∈ s.dimensions) : d.size ≤ s.size :=
  List.le_sum_of_mem (List.mem_map_of_mem hd)

theorem Placed.start_le {start : Nat} {ds : List Dimension} (h : Placed start ds)
    {d : Dimension} (hd : d ∈ ds) : start ≤ d.byteOffset := by
  induction ds generalizing start with
  | nil => cases hd
  | cons d₀ ds ih =>
    obtain ⟨hd₀, hds⟩ := h
    rcases List.mem_cons.1 hd with rfl | hd
    · exact Nat.le_of_eq hd₀.symm
    · have := ih hds hd
      omega

/-- Every field ends within the row. -/
theorem Placed.end_le {start : Nat} {ds : List Dimension} (h : Placed start ds)
    {d : Dimension} (hd : d ∈ ds) : d.byteOffset + d.size ≤ start + width ds := by
  induction ds generalizing start with
  | nil => cases hd
  | cons d₀ ds ih =>
    obtain ⟨hd₀, hds⟩ := h
    rw [width_cons]
    rcases List.mem_cons.1 hd with rfl | hd
    · omega
    · have := ih hds hd
      omega

/-! ### Rows as fields -/

variable {start : Nat} {ds : List Dimension} {d : Dimension} {pre rest : List UInt8}

/-- Where a field does not lie in the front part of a row, only the length of that part
matters. -/
theorem field_append (h : pre.length ≤ d.byteOffset) :
    d.field (pre ++ rest) = slice (d.byteOffset - pre.length) d.size rest := by
  rw [Dimension.field, slice, slice, List.drop_append, List.drop_eq_nil_of_le h, List.nil_append]

theorem field_append_append {a : List UInt8} (hpre : pre.length = d.byteOffset)
    (ha : a.length = d.size) : d.field (pre ++ a ++ rest) = a :=
  slice_append_append hpre ha rest

/-- A row is its fields, one after another. -/
theorem flatMap_field (h : Placed start ds) (hpre : pre.length = start)
    (hrest : rest.length = width ds) : ds.flatMap (fun d => d.field (pre ++ rest)) = rest := by
  induction ds generalizing start pre rest with
  | nil => exact (List.length_eq_zero_iff.1 hrest).symm
  | cons d ds ih =>
    obtain ⟨hd, hds⟩ := h
    rw [width_cons] at hrest
    -- the first field, which joins what lies in front of the others
    obtain ⟨a, rest', rfl, ha⟩ : ∃ a rest', rest = a ++ rest' ∧ a.length = d.size :=
      ⟨rest.take d.size, rest.drop d.size, (List.take_append_drop _ _).symm, by
        rw [List.length_take]
        omega⟩
    rw [List.length_append] at hrest
    have hnext : (pre ++ a).length = start + d.size := by
      rw [List.length_append, hpre, ha]
    have hrest' : rest'.length = width ds := by omega
    have htail := ih hds hnext hrest'
    rw [← List.append_assoc, List.flatMap_cons, htail,
      field_append_append (hpre.trans hd.symm) ha]

/-- The fields of a row that is made of fields. -/
theorem field_flatMap_of_map {γ : Type} {dim : γ → Dimension} {g : γ → List UInt8} {xs : List γ}
    {x : γ} (h : Placed start (xs.map dim)) (hpre : pre.length = start)
    (hg : ∀ x ∈ xs, (g x).length = (dim x).size) (hx : x ∈ xs) :
    (dim x).field (pre ++ xs.flatMap g) = g x := by
  induction xs generalizing start pre with
  | nil => cases hx
  | cons x₀ xs ih =>
    obtain ⟨hd₀, hds⟩ := h
    have hlen := hg x₀ List.mem_cons_self
    rw [List.flatMap_cons, ← List.append_assoc]
    rcases List.mem_cons.1 hx with rfl | hx
    · exact field_append_append (hpre.trans hd₀.symm) hlen
    · refine ih hds ?_ (fun x hx => hg x (List.mem_cons_of_mem x₀ hx)) hx
      rw [List.length_append, hpre, hlen]

theorem field_flatMap {g : Dimension → List UInt8} (h : Placed start ds)
    (hpre : pre.length = start) (hg : ∀ d ∈ ds, (g d).length = d.size) (hd : d ∈ ds) :
    d.field (pre ++ ds.flatMap g) = g d := by
  rw [← List.map_id ds] at h
  exact field_flatMap_of_map h hpre hg hd

theorem length_flatMap_fields_of_map {γ : Type} {dim : γ → Dimension} {g : γ → List UInt8}
    {xs : List γ} (hg : ∀ x ∈ xs, (g x).length = (dim x).size) :
    (xs.flatMap g).length = width (xs.map dim) := by
  rw [List.length_flatMap, width, List.map_map, List.map_congr_left hg]
  rfl

theorem length_flatMap_fields {g : Dimension → List UInt8} (hg : ∀ d ∈ ds, (g d).length = d.size) :
    (ds.flatMap g).length = width ds := by
  have hlength : (ds.flatMap g).length = width (ds.map id) := length_flatMap_fields_of_map hg
  rw [hlength, List.map_id]

/-- Changing one field after another changes each of them by itself. -/
theorem foldl_overwrite_fields {γ : Type} {dim : γ → Dimension}
    {f : γ → List UInt8 → List UInt8} {xs : List γ} (h : Placed start (xs.map dim))
    (hf : ∀ x ∈ xs, ∀ a, a.length = (dim x).size → (f x a).length = (dim x).size)
    (hpre : pre.length = start) (hrest : rest.length = width (xs.map dim)) :
    xs.foldl (fun row x => overwrite (dim x).byteOffset (f x ((dim x).field row)) row) (pre ++ rest)
      = pre ++ xs.flatMap fun x => f x ((dim x).field (pre ++ rest)) := by
  induction xs generalizing start pre rest with
  | nil =>
    rw [List.length_eq_zero_iff.1 hrest]
    rfl
  | cons x xs ih =>
    obtain ⟨hd, hds⟩ := h
    rw [List.map_cons, width_cons] at hrest
    obtain ⟨a, rest', rfl, ha⟩ : ∃ a rest', rest = a ++ rest' ∧ a.length = (dim x).size :=
      ⟨rest.take (dim x).size, rest.drop (dim x).size, (List.take_append_drop _ _).symm, by
        rw [List.length_take]
        omega⟩
    rw [List.length_append] at hrest
    have hfa := hf x List.mem_cons_self a ha
    have hfield : (dim x).field (pre ++ a ++ rest') = a :=
      field_append_append (hpre.trans hd.symm) ha
    have hnext : (pre ++ f x a).length = start + (dim x).size := by
      rw [List.length_append, hpre, hfa]
    have hrest' : rest'.length = width (xs.map dim) := by omega
    have htail := ih hds (fun y hy => hf y (List.mem_cons_of_mem x hy)) hnext hrest'
    -- the later fields read what they read before the change
    have hsame : ∀ y ∈ xs, (dim y).field (pre ++ f x a ++ rest')
        = (dim y).field (pre ++ a ++ rest') := by
      intro y hy
      have hle := hds.start_le (List.mem_map_of_mem hy)
      have hlen : (pre ++ a).length = (pre ++ f x a).length := by
        rw [List.length_append, List.length_append, ha, hfa]
      rw [field_append (by omega), field_append (by omega), hlen]
    rw [← List.append_assoc, List.foldl_cons, List.flatMap_cons, hfield,
      overwrite_append_append (hpre.trans hd.symm) (ha.trans hfa.symm), htail, List.append_assoc]
    congr 2
    exact List.flatMap_congr fun y hy => congrArg (f y) (hsame y hy)

/-! ### Rows turned around -/

theorem flipRow_eq (h : s.Built) {row : List UInt8} (hrow : row.length = s.size) :
    s.flipRow row = s.dimensions.flatMap fun d => (d.field row).reverse := by
  have hplaced : Placed 0 (s.dimensions.map id) := by
    rw [List.map_id]
    exact h.placed
  have hwidth : row.length = width (s.dimensions.map id) := by
    rw [List.map_id]
    exact hrow
  exact foldl_overwrite_fields (f := fun _ => List.reverse) hplaced
    (fun _ _ _ ha => List.length_reverse.trans ha) List.length_nil hwidth

theorem length_field (h : s.Built) {row : List UInt8} (hrow : row.length = s.size)
    (hd : d ∈ s.dimensions) : (d.field row).length = d.size := by
  have hend := h.placed.end_le hd
  rw [Nat.zero_add, width_dimensions, ← hrow] at hend
  exact length_slice hend

theorem length_flipRow (h : s.Built) {row : List UInt8} (hrow : row.length = s.size) :
    (s.flipRow row).length = s.size := by
  rw [flipRow_eq h hrow]
  refine length_flatMap_fields ?_
  intro d hd
  rw [List.length_reverse, length_field h hrow hd]

/-- Turning around the fields of a row twice changes nothing. -/
theorem flipRow_flipRow (h : s.Built) {row : List UInt8} (hrow : row.length = s.size) :
    s.flipRow (s.flipRow row) = row := by
  have hfields : ∀ d ∈ s.dimensions, (d.field (s.flipRow row)).reverse = d.field row := by
    intro d hd
    -- a turned row is made of fields too, of which each is turned once more
    have hflip := field_flatMap h.placed List.length_nil
      (g := fun d => (d.field row).reverse) (fun d hd => by
        rw [List.length_reverse, length_field h hrow hd]) hd
    rw [List.nil_append] at hflip
    rw [flipRow_eq h hrow, hflip, List.reverse_reverse]
  rw [flipRow_eq h (length_flipRow h hrow), List.flatMap_congr hfields]
  exact flatMap_field h.placed List.length_nil hrow

theorem flipRows_eq_mapPieces (s : Schema) (rows : List UInt8) :
    s.flipRows rows = mapPieces s.size s.flipRow rows := rfl

theorem length_flipRows (h : s.Built) (rows : List UInt8) :
    (s.flipRows rows).length = rows.length := by
  rw [flipRows_eq_mapPieces]
  exact length_mapPieces (fun _ hp => length_flipRow h hp) rows

/-- Turning around the fields of all rows twice changes nothing. -/
theorem flipRows_flipRows (h : s.Built) (rows : List UInt8) :
    s.flipRows (s.flipRows rows) = rows := by
  rw [flipRows_eq_mapPieces, flipRows_eq_mapPieces]
  exact mapPieces_mapPieces (fun _ hp => length_flipRow h hp) (fun _ hp => flipRow_flipRow h hp) rows

/-! ### A specimen -/

/-- A schema with fields of three widths, which asks for columns. -/
def specimen : Schema := resolveXY
  { pcid := 7
    target := .columns
    slots := [some { name := "X", position := 0, type := .int32 },
      some { name := "Y", position := 1, type := .int32, byteOffset := 4 },
      some { name := "Intensity", position := 2, type := .uint16, byteOffset := 8 },
      some { name := "Time", position := 3, type := .float64, byteOffset := 10 }]
    names := (((NameIndex.assign [] "X" 0).assign "Y" 1).assign "Intensity" 2).assign "Time" 3 }

theorem specimen_built : specimen.Built := by
  have hset : (vacant 4).setAll
      [{ name := "X", position := 0, type := .int32 }, { name := "Y", position := 1, type := .int32 },
        { name := "Intensity", position := 2, type := .uint16 },
        { name := "Time", position := 3, type := .float64 }]
      = .ok { specimen with pcid := 0, xPosition := none, yPosition := none, target := .rows } := rfl
  exact (((Built.vacant 4).setAll hset).label 7 0 .columns).resolveXY

end Schema

end PointPatch
