/-
PointPatch/Column/Sigbits.lean

Removal of leading bits that all elements of a column share.

A payload opens with two words of the element width, the number of shared
bits and the shared bits themselves in place; then follow the remaining low
bits of each element, most significant first, in one stream that is filled up
with zero bits to a whole byte.  The stream has no byte order; the two words
have.

`commonBits` is the number of leading bits on which all words agree, with
their value; an empty list agrees on everything.

Where all bits are shared a payload can stand for any number of elements.  So
there has to be memory for them before they are made.
-/
import PointPatch.Bytes.Chunk
import PointPatch.Fault
import PointPatch.Memory

namespace PointPatch

/-! ### Bits -/

/-- The `k` low bits of `n`, most significant first. -/
def lowBits : Nat → Nat → List Bool
  | 0, _ => []
  | k + 1, n => n.testBit k :: lowBits k n

/-- The number whose bits are given most significant first. -/
def ofBits (bits : List Bool) : Nat :=
  bits.foldl (fun n b => 2 * n + b.toNat) 0

/-- Bits packed into bytes, most significant first, the last byte filled up with zeros. -/
def packBits (bits : List Bool) : List UInt8 :=
  (chunksOf 8 ((bits.length + 7) / 8) bits).map fun piece =>
    UInt8.ofNat (ofBits piece * Nat.pow 2 (8 - piece.length))

/-- The bits of bytes, most significant first. -/
def unpackBits (bytes : List UInt8) : List Bool :=
  bytes.flatMap fun b => lowBits 8 b.toNat

@[simp] theorem length_lowBits (k n : Nat) : (lowBits k n).length = k := by
  induction k with
  | zero => rfl
  | succ k ih => simp [lowBits, ih]

/-! ### Shared leading bits -/

/-- How many leading bits of `width` bit words all words agree on, and those bits in place,
the low bits cleared. -/
def commonBits (width : Nat) (words : List Nat) : Nat × Nat :=
  if words = [] then (width, 0)
  else
    let all := words.foldl (· &&& ·) (Nat.pow 2 width - 1)
    let any := words.foldl (· ||| ·) 0
    let differing := all ^^^ any
    let count := if differing = 0 then width else width - (differing.log2 + 1)
    (count, all >>> (width - count) <<< (width - count))

namespace Sigbits

/-- Whether elements of this many bytes can be treated as words. -/
def isSupported (size : Nat) : Bool :=
  size == 1 || size == 2 || size == 4 || size == 8

/-- The elements of a buffer as words. -/
def words (size : Nat) (bytes : List UInt8) : List Nat :=
  (chunks size bytes).map Word.ofLittle

/-- The number of leading bits that all elements share. -/
def commonBitCount (size : Nat) (bytes : List UInt8) : Except Fault Nat :=
  if isSupported size then .ok (commonBits (8 * size) (words size bytes)).1
  else .error (.unsupportedWidth size)

/-- The payload of `size` byte words. -/
def encodeWords (size : Nat) (ws : List Nat) : List UInt8 :=
  let (count, common) := commonBits (8 * size) ws
  Word.toLittle size count ++ Word.toLittle size common
    ++ packBits (ws.flatMap (lowBits (8 * size - count)))

/-- The payload of elements of `size` bytes. -/
def encode (size : Nat) (bytes : List UInt8) : Except Fault (List UInt8) :=
  if isSupported size then .ok (encodeWords size (words size bytes))
  else .error (.unsupportedWidth size)

/-- The number of stream bytes that `count` fields of `width` bits take. The bit count stays
within a machine word. -/
def streamBytes (count width : Nat) : Nat :=
  (min (count * width) (Nat.pow 2 64 - 1) + 7) / 8

/-- The `count` words of `size` bytes that a payload stands for: the shared bits, completed by
one field of the stream each. What follows the stream is ignored. -/
def decodeWords (size count : Nat) (payload : List UInt8) (memory : Memory := .tebibyte) :
    Except Fault (List Nat) :=
  let width := 8 * size
  if payload.length < 2 * size then .error (.sharedHeader payload.length (2 * size))
  else
    let shared := Word.ofLittle (payload.take size)
    let common := Word.ofLittle (slice size size payload)
    if width < shared then .error (.sharedCount width)
    else
      let body := payload.drop (2 * size)
      let needed := streamBytes count (width - shared)
      if body.length < needed then .error (.sharedStream body.length needed)
      else if memory.grants (count * size) then
        let fields := (chunksOf (width - shared) count (unpackBits body)).map ofBits
        if fields.all fun low => low < Nat.pow 2 width then
          .ok (fields.map fun low => common ||| low)
        else .error .sharedOverflow
      else .error (.sharedCapacity count size)

/-- The `count` elements of `size` bytes that a payload stands for. -/
def decode (size count : Nat) (payload : List UInt8) (memory : Memory := .tebibyte) :
    Except Fault (List UInt8) :=
  if isSupported size then
    (decodeWords size count payload memory).map fun ws => ws.flatMap (Word.toLittle size)
  else .error (.unsupportedWidth size)

/-- Turns around the two words that open a payload. -/
def flip (size : Nat) (payload : List UInt8) : List UInt8 :=
  if payload.length < 2 * size then payload
  else (payload.take size).reverse ++ (slice size size payload).reverse ++ payload.drop (2 * size)

end Sigbits

end PointPatch
