/-
PointPatch/Bytes/Order.lean

The two byte orders a message can be written in, and the one byte flag that
announces which of them was used.  Everything held in memory is in machine
order; a message in the other order is turned around on its way in or out.
-/

namespace PointPatch

/-- The order in which the bytes of a multi-byte word follow each other. -/
inductive ByteOrder where
  /-- Most significant byte first. -/
  | big
  /-- Least significant byte first. -/
  | little
deriving DecidableEq, Repr

namespace ByteOrder

/-- The flag byte that opens a message of this order. -/
def flag : ByteOrder → UInt8
  | big => 0
  | little => 1

/-- The order a flag byte announces; bytes other than 0 and 1 announce none. -/
def ofFlag? (b : UInt8) : Option ByteOrder :=
  if b = 0 then some big else if b = 1 then some little else none

/-- The order of everything held in memory. -/
def machine : ByteOrder := little

/-- Whether words of this order have to be turned around to be held in memory. -/
def isForeign (o : ByteOrder) : Bool := o != machine

/-- The word for this order in a configuration text. -/
def name : ByteOrder → String
  | big => "big"
  | little => "little"

/-- The order a configuration word names. -/
def ofName? (s : String) : Option ByteOrder :=
  if s = "big" then some big else if s = "little" then some little else none

@[simp] theorem ofFlag?_flag (o : ByteOrder) : ofFlag? o.flag = some o := by
  cases o <;> rfl

theorem ofFlag?_eq_some_iff {b : UInt8} {o : ByteOrder} : ofFlag? b = some o ↔ b = o.flag := by
  unfold ofFlag?
  cases o <;> (repeat' split) <;> simp_all [flag]

end ByteOrder

end PointPatch
