/-
PointPatch/Schema/Basic.lean

The layout of the records that points and patches are made of.

A schema has a fixed number of slots, each empty or filled with a dimension.
`set` fills a slot and lays the fields out again, in slot order and without
gaps.  Two slots may be marked as the coordinates X and Y; they are found by
name, with `resolveXY`.  `subset` picks slots out of a schema, in any order
and with repetitions.
-/
import PointPatch.Dimension
import PointPatch.Fault
import PointPatch.Memory
import PointPatch.Schema.Names

namespace PointPatch

/-- The layout of a record. -/
structure Schema where
  /-- The id that messages carry. -/
  pcid : UInt32 := 0
  /-- The id of the spatial reference system. -/
  srid : UInt32 := 0
  /-- The slots, in the order of the record. -/
  slots : List (Option Dimension)
  /-- The slot of the X coordinate, once it has been looked for. -/
  xPosition : Option Nat := none
  /-- The slot of the Y coordinate, once it has been looked for. -/
  yPosition : Option Nat := none
  /-- The form that patches are compressed to. -/
  target : Representation := .rows
  /-- The slots by name. -/
  names : NameIndex := []
deriving DecidableEq, Repr

namespace Schema

/-- A schema with `count` empty slots. -/
def vacant (count : Nat) : Schema where
  slots := List.replicate count none

/-- A schema with `count` empty slots, if as many can be held.  How many bytes a slot takes is up
to the machine; it is one at the least. -/
def withSlots (count : Nat) (memory : Memory := .tebibyte) (slotBytes : Nat := 1) :
    Except Fault Schema :=
  if memory.grants (count * slotBytes) then .ok (vacant count) else .error (.slotsRefused count)

/-- The dimensions of the filled slots, in slot order. -/
def dimensions (s : Schema) : List Dimension := s.slots.filterMap id

/-- The number of slots. -/
def slotCount (s : Schema) : Nat := s.slots.length

/-- The width of a record in bytes. -/
def size (s : Schema) : Nat := (s.dimensions.map Dimension.size).foldr (· + ·) 0

/-- Whether every slot is filled. -/
def isFilled (s : Schema) : Bool := s.slots.all Option.isSome

/-! ### Building -/

/-- Slots with their fields placed one after another, beginning at `start`. -/
def layOut : Nat → List (Option Dimension) → List (Option Dimension)
  | _, [] => []
  | start, none :: rest => none :: layOut start rest
  | start, some d :: rest => some { d with byteOffset := start } :: layOut (start + d.size) rest

/-- Puts a dimension into the slot of its position. The name of the dimension that was there
before is forgotten, then the new name is made to stand for the slot. -/
def set (s : Schema) (d : Dimension) : Except Fault Schema :=
  match s.slots[d.position]? with
  | none => .error (.indexOutOfRange d.position s.slotCount)
  | some previous =>
    let names := match previous with
      | some p => s.names.forget p.name
      | none => s.names
    .ok { s with
      slots := layOut 0 (s.slots.set d.position (some d))
      names := names.assign d.name d.position }

/-- Puts dimensions into their slots, one after another. -/
def setAll (s : Schema) (ds : List Dimension) : Except Fault Schema :=
  ds.foldlM set s

/-! ### Coordinates -/

/-- The names of the X coordinate. -/
def xNames : List String := ["x", "longitude", "lon"]

/-- The names of the Y coordinate. -/
def yNames : List String := ["y", "latitude", "lat"]

/-- The slot of the first dimension that has one of the names. -/
def findAny (s : Schema) (names : List String) : Option Nat :=
  (s.dimensions.find? fun d => names.any (Text.sameWord d.name)).map Dimension.position

/-- The schema with its coordinates looked for by name. -/
def resolveXY (s : Schema) : Schema :=
  { s with xPosition := s.findAny xNames, yPosition := s.findAny yNames }

/-- Whether both coordinates are marked. -/
def hasXY (s : Schema) : Bool := s.xPosition.isSome && s.yPosition.isSome

/-- What keeps a schema from being used for points and patches. -/
inductive Problem where
  | noX
  | noY
  | noDimensions
  | emptySlot (position : Nat)
deriving DecidableEq, Repr

/-- The first problem of a schema. -/
def problem? (s : Schema) : Option Problem :=
  if s.xPosition.isNone then some .noX
  else if s.yPosition.isNone then some .noY
  else if s.slots.isEmpty then some .noDimensions
  else (s.slots.findIdx? Option.isNone).map .emptySlot

/-- Whether a schema can be used for points and patches. -/
def isValid (s : Schema) : Bool := s.problem?.isNone

/-! ### Look-ups -/

/-- The dimension in a slot. -/
def dimension? (s : Schema) (position : Nat) : Option Dimension :=
  s.slots[position]?.join

/-- The slot that a name stands for. -/
def position? (s : Schema) (name : String) : Option Nat := s.names.slot? name

/-- The dimension that a name stands for. -/
def dimensionNamed? (s : Schema) (name : String) : Option Dimension :=
  (s.position? name).bind s.dimension?

/-- The dimension that a name stands for, or a fault. -/
def dimensionNamed (s : Schema) (name : String) : Except Fault Dimension :=
  match s.dimensionNamed? name with
  | some d => .ok d
  | none => .error (.dimensionNotFound name)

/-- The dimension in a slot, or a fault. -/
def dimensionAt (s : Schema) (position : Nat) : Except Fault Dimension :=
  match s.dimension? position with
  | some d => .ok d
  | none => .error (.indexOutOfRange position s.slotCount)

/-- The slot that a name stands for, or a fault. -/
def position (s : Schema) (name : String) : Except Fault Nat :=
  match s.position? name with
  | some p => .ok p
  | none => .error (.dimensionNotFound name)

/-- The dimensions of the two coordinates, where both are marked and their slots filled. -/
def xyDimensions? (s : Schema) : Option (Dimension × Dimension) := do
  let x ← s.xPosition.bind s.dimension?
  let y ← s.yPosition.bind s.dimension?
  return (x, y)

/-! ### Subsets -/

/-- The schema of the slots at the given positions, renumbered in that order. The coordinates
are looked for again. -/
def subset (s : Schema) (positions : List Nat) : Except Fault Schema := do
  let start : Schema :=
    { vacant positions.length with pcid := s.pcid, srid := s.srid, target := s.target }
  let picked ← positions.zipIdx.foldlM
    (fun picked (position, slot) =>
      match s.slots[position]? with
      | none => .error (.indexOutOfRange position s.slotCount)
      | some none => .ok picked
      | some (some d) => picked.set { d with position := slot })
    start
  return picked.resolveXY

/-! ### Rows -/

/-- The row whose bytes are all zero. -/
def zeroRow (s : Schema) : List UInt8 := List.replicate s.size 0

/-- The row in which every field stores the value of its dimension. -/
def rowOf (s : Schema) (value : Dimension → Double) : List UInt8 :=
  s.dimensions.foldl (fun row d => d.write (value d) row) s.zeroRow

/-- A row with the bytes of every field reversed. -/
def flipRow (s : Schema) (row : List UInt8) : List UInt8 :=
  s.dimensions.foldl (fun row d => d.flip row) row

/-- A buffer of rows with the bytes of every field reversed; a partial row at the end stays. -/
def flipRows (s : Schema) (rows : List UInt8) : List UInt8 :=
  (chunks s.size rows).flatMap s.flipRow ++ rows.drop (rows.length / s.size * s.size)

end Schema

end PointPatch
