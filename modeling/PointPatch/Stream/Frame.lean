/-
PointPatch/Stream/Frame.lean

Zstandard frames whose blocks are stored as they are or repeat one byte.

A frame opens with a magic number and a header that states the window size,
or the content size in place of it; blocks follow up to the last one.
Skippable frames hold no content.  Frames with compressed blocks, checksums or
dictionaries are not read.

This module reads headers and blocks off a stream; what is made of them is in
`PointPatch.Stream.Frames`.
-/
import PointPatch.Bytes.Word
import PointPatch.Stream.Output

namespace PointPatch

namespace Zstandard

/-- Reads `n` bytes. -/
def takeBytes (n : Nat) (bytes : List UInt8) : Except Flaw (List UInt8 × List UInt8) :=
  let field := bytes.take n
  if field.length < n then .error .missing else .ok (field, bytes.drop n)

/-- Reads a number of `n` bytes, least significant first. -/
def takeNumber (n : Nat) (bytes : List UInt8) : Except Flaw (Nat × List UInt8) := do
  let (field, bytes) ← takeBytes n bytes
  return (Word.ofLittle field, bytes)

/-! ### Frame headers -/

/-- The number that opens a frame. -/
def magic : Nat := 0xfd2fb528

/-- Whether a number opens a skippable frame. -/
def isSkippable (number : Nat) : Bool := number / 16 == 0x184d2a5

/-- The largest block. -/
def largestBlock : Nat := Nat.pow 2 17

/-- What the header of a frame states. -/
structure Header where
  /-- How far back references may reach. -/
  window : Nat
  /-- The length of the content, where it is stated. -/
  contentSize : Option Nat

/-- No block of a frame may be larger than the window, nor than the largest block of all. -/
def Header.blockSize (h : Header) : Nat := min h.window largestBlock

/-- How many bytes state the content size, by the two top bits of the header. -/
def contentSizeBytes (flag : Nat) (isSingle : Bool) : Nat :=
  match flag with
  | 0 => if isSingle then 1 else 0
  | 1 => 2
  | 2 => 4
  | _ => 8

/-- The number that states no content size. -/
def unknownSize : Nat := Nat.pow 2 64 - 1

/-- The window size that a descriptor byte stands for, from one KiB to just below four GiB. -/
def windowOfDescriptor (b : Nat) : Except Flaw Nat :=
  let base := Nat.pow 2 (10 + b / 8)
  if 21 < b / 8 then .error .wrong else .ok (base + base / 8 * (b % 8))

/-- Reads the header of a frame. Without a window size, the content is the window. -/
def takeHeader (bytes : List UInt8) : Except Flaw (Header × List UInt8) := do
  let (descriptor, bytes) ← takeNumber 1 bytes
  let isSingle : Bool := descriptor / 32 % 2 == 1
  let isPlain : Bool := descriptor / 8 % 2 == 0 && descriptor / 4 % 2 == 0
  if !isPlain then throw .wrong
  let (window, bytes) ←
    if isSingle then pure (0, bytes)
    else do
      let (b, bytes) ← takeNumber 1 bytes
      let window ← windowOfDescriptor b
      pure (window, bytes)
  let (dictionary, bytes) ← takeNumber (match descriptor % 4 with | 3 => 4 | n => n) bytes
  if dictionary ≠ 0 then throw .wrong
  let sizeBytes := contentSizeBytes (descriptor / 64) isSingle
  let (size, bytes) ← takeNumber sizeBytes bytes
  let size := if sizeBytes = 2 then size + 256 else if sizeBytes = 0 then unknownSize else size
  return (⟨if isSingle then size else window, if size = unknownSize then none else some size⟩,
    bytes)

/-! ### Blocks -/

/-- What a block is made of. -/
inductive BlockKind where
  /-- Bytes as they are. -/
  | stored
  /-- One byte, repeated. -/
  | run
  /-- Compressed content. -/
  | compressed

/-- The header of a block. -/
structure BlockHeader where
  /-- Whether the block is the last one of its frame. -/
  isLast : Bool
  /-- What it is made of. -/
  kind : BlockKind
  /-- The length of its content, or of the compressed content. -/
  size : Nat

/-- How many bytes of the stream belong to a block. -/
def BlockHeader.width (h : BlockHeader) : Nat :=
  match h.kind with
  | .run => 1
  | .stored | .compressed => h.size

/-- Reads the header of a block. -/
def takeBlockHeader (bytes : List UInt8) : Except Flaw (BlockHeader × List UInt8) := do
  let (header, bytes) ← takeNumber 3 bytes
  let isLast : Bool := header % 2 == 1
  match header / 2 % 4 with
  | 0 => return (⟨isLast, .stored, header / 8⟩, bytes)
  | 1 => return (⟨isLast, .run, header / 8⟩, bytes)
  | 2 => return (⟨isLast, .compressed, header / 8⟩, bytes)
  | _ => throw .wrong

/-- A block together with the bytes of the stream that belong to it. -/
structure Block where
  /-- The header. -/
  header : BlockHeader
  /-- The bytes after it. -/
  bytes : List UInt8

/-- The length of the content of a block. -/
def Block.size? (b : Block) : Option Nat :=
  match b.header.kind with
  | .stored | .run => some b.header.size
  | .compressed => none

/-- The content of a block. -/
def Block.content (b : Block) : List UInt8 :=
  match b.header.kind with
  | .stored => b.bytes
  | .run => b.bytes.flatMap (List.replicate b.header.size)
  | .compressed => []

/-- Reads blocks up to the last one. A block takes at least three bytes, so the number of bytes
left bounds the number of blocks. -/
def takeBlocks : Nat → List UInt8 → Except Flaw (List Block × List UInt8)
  | 0, _ => .error .wrong
  | fuel + 1, bytes => do
    let (header, bytes) ← takeBlockHeader bytes
    let (field, bytes) ← takeBytes header.width bytes
    if header.isLast then return ([⟨header, field⟩], bytes)
    else do
      let (blocks, bytes) ← takeBlocks fuel bytes
      return (⟨header, field⟩ :: blocks, bytes)

end Zstandard

end PointPatch
