/-
PointPatch/Wire/Cursor.lean

Reading a message from front to back.  A cursor is what is left of a message
together with how many bytes lie behind it; each reader returns what it read
and the cursor past it, or a fault when the message is too short.
-/
import PointPatch.Bytes.Word
import PointPatch.Fault

namespace PointPatch

/-- A place in a message. -/
structure Cursor where
  /-- How many bytes have been read. -/
  position : Nat
  /-- What has not been read yet. -/
  rest : List UInt8
deriving DecidableEq, Repr

namespace Cursor

/-- The start of a message. -/
def start (bytes : List UInt8) : Cursor := ⟨0, bytes⟩

/-- The cursor `n` bytes further on. -/
def advance (c : Cursor) (n : Nat) : Cursor := ⟨c.position + n, c.rest.drop n⟩

/-- Reads one byte. -/
def byte (c : Cursor) : Except Fault (UInt8 × Cursor) :=
  match c.rest with
  | b :: _ => .ok (b, c.advance 1)
  | [] => .error .truncated

/-- Reads a four byte word. -/
def word (order : ByteOrder) (c : Cursor) : Except Fault (Nat × Cursor) :=
  if c.rest.length < 4 then .error .truncated
  else .ok (Word.ofBytes order (c.rest.take 4), c.advance 4)

/-- Reads `n` bytes. -/
def bytes (n : Nat) (c : Cursor) : Except Fault (List UInt8 × Cursor) :=
  if c.rest.length < n then .error (.sliceBeyondEnd n c.position c.rest.length)
  else .ok (c.rest.take n, c.advance n)

end Cursor

end PointPatch
