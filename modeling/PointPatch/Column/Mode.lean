/-
PointPatch/Column/Mode.lean

The modes that a column can be stored in, with the tag of each on the wire.
The last mode has two names: notices and error texts speak of the stream
format, rendered documents of the method.
-/

namespace PointPatch

/-- How the values of a column are stored. -/
inductive Mode where
  /-- Back to back, as they are. -/
  | raw
  /-- As runs of equal values. -/
  | rle
  /-- Without the leading bits that all values share. -/
  | sigbits
  /-- As a compressed stream. -/
  | deflate
deriving DecidableEq, Repr

namespace Mode

/-- The tag on the wire. -/
def tag : Mode → UInt8
  | raw => 0
  | rle => 1
  | sigbits => 2
  | deflate => 3

/-- The mode that a tag stands for. -/
def ofTag? (b : UInt8) : Option Mode :=
  if b = 0 then some raw
  else if b = 1 then some rle
  else if b = 2 then some sigbits
  else if b = 3 then some deflate
  else none

/-- The name in notices and error texts. -/
def name : Mode → String
  | raw => "none"
  | rle => "rle"
  | sigbits => "sigbits"
  | deflate => "zlib"

/-- The name in rendered documents. -/
def key : Mode → String
  | deflate => "deflate"
  | m => m.name

@[simp] theorem ofTag?_tag (m : Mode) : ofTag? m.tag = some m := by
  cases m <;> rfl

theorem ofTag?_eq_some_iff {b : UInt8} {m : Mode} : ofTag? b = some m ↔ b = m.tag := by
  unfold ofTag?
  cases m <;> (repeat' split) <;> simp_all [tag]

end Mode

end PointPatch
