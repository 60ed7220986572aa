/-
PointPatch/Proofs/Schema/Ledger.lean

Schemas that keep their sizes in a book.

A schema of the library works out the width of a field from its type, and the
width of a record from its fields.  In memory both are written down: a
dimension comes with a width beside its type, a schema keeps the width of its
records, and either could say anything.  A `Ledger` is a schema in that form.
Setting a dimension stores it as it came, with whatever width and place it
carried, and then goes through all slots and writes widths and places anew.

`Ledger.of` writes the book of a schema.  Setting a dimension, picking slots
and turning rows around lead from the book of a schema to the book of the
outcome (`set_of`, `subset_of`, `flipRows_of`), so every ledger that can be
had by such steps is the book of a schema that can be made
(`Reached.exists_built`), and what came with the dimensions is forgotten.
-/
import PointPatch.Proofs.Schema.Layout

namespace PointPatch

/-- A dimension together with the width of its field. -/
structure Field where
  /-- The dimension, which says where the field begins. -/
  dimension : Dimension
  /-- The width of the field in bytes. -/
  width : Nat

namespace Field

/-- The field of a dimension, as wide as its type asks. -/
def of (d : Dimension) : Field := ⟨d, d.size⟩

/-- The places of a row that the field takes. -/
def places (f : Field) : List Nat := List.range' f.dimension.byteOffset f.width

/-- The row with the bytes of the field reversed. -/
def flip (f : Field) (row : List UInt8) : List UInt8 :=
  overwrite f.dimension.byteOffset (slice f.dimension.byteOffset f.width row).reverse row

end Field

/-- A schema with all widths written down. -/
structure Ledger where
  /-- The id that messages carry. -/
  pcid : UInt32 := 0
  /-- The id of the spatial reference system. -/
  srid : UInt32 := 0
  /-- The slots, in the order of the record. -/
  slots : List (Option Field)
  /-- The width of a record in bytes. -/
  size : Nat := 0
  /-- The slot of the X coordinate, once it has been looked for. -/
  xPosition : Option Nat := none
  /-- The slot of the Y coordinate, once it has been looked for. -/
  yPosition : Option Nat := none
  /-- The form that patches are compressed to. -/
  target : Representation := .rows
  /-- The slots by name. -/
  names : NameIndex := []

namespace Ledger

/-! ### The book of a schema -/

/-- The ledger with `count` empty slots. -/
def vacant (count : Nat) : Ledger where
  slots := List.replicate count none

/-- The fields of the filled slots, in slot order. -/
def fields (l : Ledger) : List Field := l.slots.filterMap id

/-- The field in a slot. -/
def field? (l : Ledger) (position : Nat) : Option Field := l.slots[position]?.join

/-- What the ledger of a schema says. -/
def of (s : Schema) : Ledger where
  pcid := s.pcid
  srid := s.srid
  slots := s.slots.map (Option.map Field.of)
  size := s.size
  xPosition := s.xPosition
  yPosition := s.yPosition
  target := s.target
  names := s.names

theorem fields_of (s : Schema) : (of s).fields = s.dimensions.map Field.of := by
  show (s.slots.map (Option.map Field.of)).filterMap id = (s.slots.filterMap id).map Field.of
  rw [List.filterMap_map, List.map_filterMap]
  rfl

theorem field?_of (s : Schema) (position : Nat) :
    (of s).field? position = (s.dimension? position).map Field.of := by
  show (s.slots.map (Option.map Field.of))[position]?.join = s.slots[position]?.join.map Field.of
  rw [List.getElem?_map]
  rcases s.slots[position]? with - | slot
  · rfl
  · rfl

/-! ### Setting -/

/-- Slots with their fields placed one after another, beginning at `start`, and where the last of
them ends. The width of each is written anew before it is counted. -/
def place : Nat → List (Option Field) → List (Option Field) × Nat
  | start, [] => ([], start)
  | start, none :: rest =>
    let (slots, stop) := place start rest
    (none :: slots, stop)
  | start, some f :: rest =>
    let width := f.dimension.type.size
    let (slots, stop) := place (start + width) rest
    (some ⟨{ f.dimension with byteOffset := start }, width⟩ :: slots, stop)

/-- Puts a field into the slot of its position, and places all fields anew. -/
def set (l : Ledger) (f : Field) : Except Fault Ledger :=
  match l.slots[f.dimension.position]? with
  | none => .error (.indexOutOfRange f.dimension.position l.slots.length)
  | some previous =>
    let names := match previous with
      | some p => l.names.forget p.dimension.name
      | none => l.names
    let (slots, size) := place 0 (l.slots.set f.dimension.position (some f))
    .ok { l with slots, size, names := names.assign f.dimension.name f.dimension.position }

/-- The dimensions in some slots, whatever widths are written beside them. -/
def dimensionSlots (slots : List (Option Field)) : List (Option Dimension) :=
  slots.map (Option.map Field.dimension)

/-- Fields are placed by what their types ask for, not by what is written beside them. -/
theorem place_eq (start : Nat) (slots : List (Option Field)) :
    place start slots = ((Schema.layOut start (dimensionSlots slots)).map (Option.map Field.of),
      start + Schema.width ((dimensionSlots slots).filterMap id)) := by
  induction slots generalizing start with
  | nil => rfl
  | cons slot slots ih =>
    cases slot with
    | none =>
      rw [place, ih]
      rfl
    | some f =>
      have hstop : start + f.dimension.type.size
            + Schema.width ((dimensionSlots slots).filterMap id)
          = start + Schema.width ((dimensionSlots (some f :: slots)).filterMap id) :=
        Nat.add_assoc start f.dimension.size _
      rw [place, ih, hstop]
      rfl

theorem dimensionSlots_of (s : Schema) : dimensionSlots (of s).slots = s.slots := by
  show (s.slots.map (Option.map Field.of)).map (Option.map Field.dimension) = s.slots
  rw [List.map_map]
  refine (List.map_congr_left ?_).trans (List.map_id s.slots)
  rintro (- | d) -
  · rfl
  · rfl

/-- Laying fields out does not change how wide they are together. -/
theorem width_layOut (start : Nat) (slots : List (Option Dimension)) :
    Schema.width ((Schema.layOut start slots).filterMap id) = Schema.width (slots.filterMap id) := by
  induction slots generalizing start with
  | nil => rfl
  | cons slot slots ih =>
    cases slot with
    | none => exact ih start
    | some d => exact congrArg (d.size + ·) (ih (start + d.size))

/-- A field that is set makes the book of the schema in which its dimension is set, whatever its
width and place were. -/
theorem set_of (s : Schema) (f : Field) : (of s).set f = (s.set f.dimension).map of := by
  have hslots : dimensionSlots ((of s).slots.set f.dimension.position (some f))
      = s.slots.set f.dimension.position (some f.dimension) := by
    rw [dimensionSlots, List.map_set]
    exact congrArg (List.set · _ _) (dimensionSlots_of s)
  have hslot : (of s).slots[f.dimension.position]?
      = s.slots[f.dimension.position]?.map (Option.map Field.of) := List.getElem?_map
  have hlength : (of s).slots.length = s.slotCount := List.length_map _
  rw [set, Schema.set, hslot, hlength, place_eq, hslots, Nat.zero_add, ← width_layOut 0]
  -- no slot, an empty one, or one with a name to forget
  rcases s.slots[f.dimension.position]? with - | - | previous
  · rfl
  · rfl
  · rfl

/-! ### Coordinates and subsets -/

/-- The slot of the first dimension that has one of the names. -/
def findAny (l : Ledger) (names : List String) : Option Nat :=
  (l.fields.find? fun f => names.any (Text.sameWord f.dimension.name)).map
    fun f => f.dimension.position

/-- The ledger with its coordinates looked for by name. -/
def resolveXY (l : Ledger) : Ledger :=
  { l with xPosition := l.findAny Schema.xNames, yPosition := l.findAny Schema.yNames }

/-- The ledger of the slots at the given positions, renumbered in that order. -/
def subset (l : Ledger) (positions : List Nat) : Except Fault Ledger := do
  let start : Ledger :=
    { vacant positions.length with pcid := l.pcid, srid := l.srid, target := l.target }
  let picked ← positions.zipIdx.foldlM
    (fun picked (position, slot) =>
      match l.slots[position]? with
      | none => .error (.indexOutOfRange position l.slots.length)
      | some none => .ok picked
      | some (some f) => picked.set { f with dimension := { f.dimension with position := slot } })
    start
  return picked.resolveXY

theorem findAny_of (s : Schema) (names : List String) :
    (of s).findAny names = s.findAny names := by
  rw [findAny, Schema.findAny, fields_of, List.find?_map, Option.map_map]
  rfl

theorem resolveXY_of (s : Schema) : (of s).resolveXY = of s.resolveXY := by
  rw [resolveXY, findAny_of, findAny_of]
  rfl

theorem vacant_eq (count : Nat) : vacant count = of (Schema.vacant count) := by
  have hslots : (List.replicate count (none : Option Dimension)).map (Option.map Field.of)
      = List.replicate count none := List.map_replicate
  have hsize : (Schema.vacant count).size = 0 := by
    rw [← Schema.width_dimensions, Schema.dimensions_vacant, Schema.width_nil]
  show vacant count = { slots := _, size := (Schema.vacant count).size }
  rw [hsize, Schema.vacant, hslots]
  rfl

theorem subset_of (s : Schema) (positions : List Nat) :
    (of s).subset positions = (s.subset positions).map of := by
  have hstart : ({ vacant positions.length with
        pcid := (of s).pcid, srid := (of s).srid, target := (of s).target } : Ledger)
      = of { Schema.vacant positions.length with
        pcid := s.pcid, srid := s.srid, target := s.target } := by
    rw [vacant_eq]
    rfl
  rw [subset, Schema.subset]
  simp only [hstart]
  rw [foldlM_map_eq]
  · rcases positions.zipIdx.foldlM _ _ with e | picked
    · rfl
    · exact congrArg Except.ok (resolveXY_of picked)
  · rintro t ⟨position, slot⟩
    have hslot : (of s).slots[position]? = s.slots[position]?.map (Option.map Field.of) :=
      List.getElem?_map
    simp only [hslot]
    rcases s.slots[position]? with - | - | d
    · have hlength : (of s).slots.length = s.slotCount := List.length_map _
      rw [hlength]
      rfl
    · rfl
    · exact set_of t _

/-! ### Rows -/

/-- A row with the bytes of every field reversed. -/
def flipRow (l : Ledger) (row : List UInt8) : List UInt8 :=
  l.fields.foldl (fun row f => f.flip row) row

/-- A buffer of rows with the bytes of every field reversed; a partial row at the end stays. -/
def flipRows (l : Ledger) (rows : List UInt8) : List UInt8 :=
  (chunks l.size rows).flatMap l.flipRow ++ rows.drop (rows.length / l.size * l.size)

theorem flipRow_of (s : Schema) (row : List UInt8) : (of s).flipRow row = s.flipRow row := by
  rw [flipRow, fields_of, List.foldl_map]
  rfl

theorem flipRows_of (s : Schema) (rows : List UInt8) : (of s).flipRows rows = s.flipRows rows := by
  have hrow : (of s).flipRow = s.flipRow := funext (flipRow_of s)
  rw [flipRows, hrow]
  rfl

/-! ### The ledgers that can be had -/

/-- The ledgers that can be had: from empty slots, by setting fields of any width and place, by
picking slots, by looking for the coordinates, and by choosing ids and the form of patches. A step
that fails leaves a ledger as it was. -/
inductive Reached : Ledger → Prop
  | vacant (count : Nat) : Reached (vacant count)
  | set {l l' : Ledger} {f : Field} : Reached l → l.set f = .ok l' → Reached l'
  | subset {l l' : Ledger} {positions : List Nat} :
      Reached l → l.subset positions = .ok l' → Reached l'
  | resolveXY {l : Ledger} : Reached l → Reached l.resolveXY
  | label {l : Ledger} (pcid srid : UInt32) (target : Representation) :
      Reached l → Reached { l with pcid, srid, target }

/-- Every ledger that can be had is the book of a schema that can be made. -/
theorem Reached.exists_built {l : Ledger} (h : l.Reached) : ∃ s : Schema, s.Built ∧ l = of s := by
  induction h with
  | vacant count => exact ⟨_, .vacant count, vacant_eq count⟩
  | @set _ l' f _ hset ih =>
    obtain ⟨s, hs, rfl⟩ := ih
    rw [set_of] at hset
    obtain ⟨s', hs', rfl⟩ := map_eq_ok_iff.1 hset
    exact ⟨s', hs.set hs', rfl⟩
  | @subset _ l' positions _ hsubset ih =>
    obtain ⟨s, -, rfl⟩ := ih
    rw [subset_of] at hsubset
    obtain ⟨s', hs', rfl⟩ := map_eq_ok_iff.1 hsubset
    exact ⟨s', .subset hs', rfl⟩
  | resolveXY _ ih =>
    obtain ⟨s, hs, rfl⟩ := ih
    exact ⟨_, hs.resolveXY, resolveXY_of s⟩
  | label pcid srid target _ ih =>
    obtain ⟨s, hs, rfl⟩ := ih
    exact ⟨_, hs.label pcid srid target, rfl⟩

end Ledger

end PointPatch
