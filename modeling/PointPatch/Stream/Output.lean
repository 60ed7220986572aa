/-
PointPatch/Stream/Output.lean

What has been unpacked of a stream so far, and how unpacking ends.

A stream is unpacked ahead of what is asked for, up to a bound that its format
sets.  A fault within that stretch spoils the result, although the content in
front of it may suffice; what lies behind is never seen.  A stream that merely
ends too soon is no fault if enough content came out of it.

Streams arrive in pieces of a fixed size.  A piece is unpacked as far as it
goes, and the next is asked for only while there is too little content, so
that a fault in a piece is met only if those before it do not suffice.
-/

namespace PointPatch

/-- Why something cannot be read off a stream. -/
inductive Flaw where
  /-- The stream ends before it. -/
  | missing
  /-- What stands there means nothing. -/
  | wrong

/-- What has been unpacked so far. -/
structure Output where
  /-- The bytes, latest first. -/
  recent : List UInt8
  /-- How many they are. -/
  size : Nat

/-- Why unpacking a stream ends before the stream does. -/
inductive Stop where
  /-- The stream cannot be read on. -/
  | corrupt
  /-- The stream is used up, or the bound reached; this has come out. -/
  | halted (out : Output)

namespace Output

/-- Nothing unpacked yet. -/
def empty : Output := ⟨[], 0⟩

/-- The bytes in order. -/
def content (o : Output) : List UInt8 := o.recent.reverse

/-- One more byte; a byte past the bound halts. -/
def push (bound : Nat) (o : Output) (b : UInt8) : Except Stop Output :=
  if bound ≤ o.size then .error (.halted o) else .ok ⟨b :: o.recent, o.size + 1⟩

/-- More bytes; those past the bound halt. -/
def pushAll (bound : Nat) (o : Output) (bytes : List UInt8) : Except Stop Output :=
  bytes.foldlM (push bound) o

/-- More bytes, as many as there are. -/
def append (o : Output) (bytes : List UInt8) : Output :=
  ⟨bytes.reverseAux o.recent, o.size + bytes.length⟩

/-- What is read off the stream at this point of unpacking. -/
def expect {α : Type} (o : Output) : Except Flaw α → Except Stop α
  | .ok a => .ok a
  | .error .missing => .error (.halted o)
  | .error .wrong => .error .corrupt

/-- The first `limit` bytes, if there are as many. -/
def first? (limit : Nat) (o : Output) : Option (List UInt8) :=
  if limit ≤ o.size then some (o.content.take limit) else none

end Output

/-- At most `limit` bytes of the content of a stream of which `n` pieces have arrived. -/
def unpackPieces (piece limit : Nat) (run : List UInt8 → Except Stop Output) (stream : List UInt8) :
    Nat → Option (List UInt8)
  | 0 => none
  | n + 1 =>
    match run (stream.take ((n + 1) * piece)) with
    | .ok out =>
      if stream.length ≤ (n + 1) * piece then some (out.content.take limit) else out.first? limit
    | .error (.halted out) => out.first? limit
    | .error .corrupt => unpackPieces piece limit run stream n

/-- At most `limit` bytes of the content of a stream that arrives in pieces. Of nothing, nothing
is asked. -/
def unpackStream (piece limit : Nat) (run : List UInt8 → Except Stop Output)
    (stream : List UInt8) : Option (List UInt8) :=
  if limit = 0 then some []
  else unpackPieces piece limit run stream ((stream.length + piece - 1) / piece)

end PointPatch
