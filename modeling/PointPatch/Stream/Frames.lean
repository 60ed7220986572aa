/-
PointPatch/Stream/Frames.lean

Unpacking of Zstandard streams, one frame or several in a row.

A frame that has arrived whole, and states no more content than is asked for
at the time, is unpacked at once: its content has to be as long as stated, and
its window does not matter.  Any other frame is unpacked block by block,
through a buffer that depends on the window.  Then the window may not be too
large, nor a block larger than the window, and a stated length is compared
when a last block with content is unpacked.

Blocks are unpacked whole.  While the content of a block fits what is asked
for, the next block follows at once, even if nothing more is wanted; what does
not fit is handed on first.
-/
import PointPatch.Stream.Demand
import PointPatch.Stream.Frame

namespace PointPatch

namespace Zstandard

/-- The largest window that a frame may ask for. -/
def largestWindow : Nat := Nat.pow 2 27 + 1

/-- The smallest window that a buffer is made for. -/
def smallestWindow : Nat := Nat.pow 2 10

/-- What a buffer holds beside a window and two blocks. -/
def bufferMargin : Nat := 64

/-- The sizes of the buffers that frames are unpacked through. -/
structure Buffers where
  /-- For a block as it stands in the stream. -/
  input : Nat
  /-- For content. -/
  output : Nat

/-- Buffers are kept from frame to frame as long as they are large enough. -/
def Buffers.fit (b : Buffers) (input output : Nat) : Buffers :=
  if b.input < input ∨ b.output < output then ⟨input, output⟩ else b

/-- The buffers for a frame. -/
def Buffers.forFrame (b : Buffers) (h : Header) : Buffers :=
  let whole := max h.window smallestWindow + 2 * h.blockSize + bufferMargin
  b.fit (max h.blockSize 4) (min (h.contentSize.getD whole) whole)

/-- The buffers for a skippable frame of some size. -/
def Buffers.forSkippable (b : Buffers) (size : Nat) : Buffers :=
  b.fit 4 (min size (smallestWindow + bufferMargin))

/-! ### Progress -/

/-- How much of a stream arrives at a time: a largest block and its header. -/
def piece : Nat := largestBlock + 3

/-- How far the unpacking of a stream has come. -/
structure Progress where
  /-- What has been unpacked. -/
  output : Output
  /-- What is asked for. -/
  demand : Demand
  /-- The buffers of the frames so far. -/
  buffers : Buffers
  /-- How much of the stream has been read. -/
  position : Nat

namespace Progress

/-- Nothing unpacked yet. -/
def start (limit : Nat) : Progress := ⟨.empty, .start limit, ⟨0, 0⟩, 0⟩

/-- How much is left of the piece that has arrived last. -/
def pieceLeft (p : Progress) : Nat := piece - p.position % piece

/-- Ends the present request, if anything has come of it. -/
def settle (limit : Nat) (p : Progress) : Progress :=
  { p with demand := p.demand.settle limit }

/-- Goes on by `n` bytes of the stream. At the end of a piece what has come is handed on. -/
def advance (limit n : Nat) (p : Progress) : Progress :=
  let next := { p with position := p.position + n }
  if n < p.pieceLeft then next else next.settle limit

/-- Takes in content. It halts when the content was more than asked for, and there is enough. -/
def supply (limit : Nat) (content : List UInt8) (p : Progress) : Except Stop Progress :=
  let next := { p with
    output := p.output.append content
    demand := p.demand.supply limit content.length }
  if p.demand.room < content.length ∧ limit ≤ next.output.size then .error (.halted next.output)
  else .ok next

end Progress

/-! ### Frames at once -/

/-- The content of a frame whose blocks are all there. -/
def wholeContent (contentSize : Nat) (blocks : List Block) : Except Stop (List UInt8) :=
  match blocks.mapM Block.size? with
  | none => .error .corrupt
  | some sizes =>
    if sizes.foldr (· + ·) 0 ≠ contentSize then .error .corrupt
    else .ok (blocks.flatMap Block.content)

/-! ### Frames block by block -/

/-- What the blocks of a frame have to keep to. -/
structure BlockRules where
  /-- How much had been unpacked before the frame. -/
  before : Nat
  /-- The largest block. -/
  blockSize : Nat
  /-- The length of the content, where it is stated. -/
  contentSize : Option Nat
  /-- The size of the buffer. -/
  buffer : Nat

/-- Whether `n` more bytes of a block are right. A buffer that can hold all the stated content is
never emptied; the last block completes the content. -/
def BlockRules.admits (r : BlockRules) (h : BlockHeader) (out : Output) (n : Nat) : Bool :=
  let total := out.size - r.before + n
  n ≤ r.blockSize &&
    match r.contentSize with
    | none => true
    | some stated =>
      (r.buffer < stated || total ≤ r.buffer) && (!h.isLast || n < h.size || total == stated)

/-- Unpacks a block with bytes of its own. Of bytes stored as they are, each piece comes out by
itself, and what is there of them even when the stream ends too soon. -/
def unpackBlock (limit : Nat) (r : BlockRules) (h : BlockHeader) (bytes : List UInt8)
    (p : Progress) : Except Stop (List UInt8 × Progress) := do
  match h.kind with
  | .stored =>
    let field := bytes.take h.size
    if !r.admits h p.output field.length then throw .corrupt
    let left := p.pieceLeft
    let p ← p.supply limit (field.take left)
    let p ← (p.advance limit field.length).supply limit (field.drop left)
    if field.length < h.size then throw (.halted p.output)
    return (bytes.drop h.size, p)
  | .run =>
    let (b, bytes) ← p.output.expect (takeNumber 1 bytes)
    if !r.admits h p.output h.size then throw .corrupt
    let p ← p.supply limit (List.replicate h.size (UInt8.ofNat b))
    return (bytes, p.advance limit 1)
  | .compressed =>
    let _ ← p.output.expect (takeBytes h.size bytes)
    throw .corrupt

/-- Unpacks blocks up to the last one. A block takes at least three bytes, so the number of
bytes left bounds the number of blocks. -/
def unpackBlocks (limit : Nat) (r : BlockRules) :
    Nat → List UInt8 → Progress → Except Stop (List UInt8 × Progress)
  | 0, _, _ => .error .corrupt
  | fuel + 1, bytes, p => do
    let (h, bytes) ← p.output.expect (takeBlockHeader bytes)
    if r.blockSize < h.width then throw .corrupt
    let p := p.advance limit 3
    let (bytes, p) ← if h.width = 0 then pure (bytes, p) else unpackBlock limit r h bytes p
    if h.isLast then return (bytes, p) else unpackBlocks limit r fuel bytes p

/-! ### Streams -/

/-- Unpacks a frame with content; `ahead` is what has arrived of the stream from its blocks on. -/
def unpackContent (limit : Nat) (h : Header) (ahead bytes : List UInt8) (p : Progress) :
    Except Stop (List UInt8 × Progress) := do
  let stated := h.contentSize.filter (· ≤ p.demand.room)
  match stated, takeBlocks (ahead.length + 1) ahead with
  | some contentSize, .ok (blocks, rest) =>
    let p ← p.supply limit (← wholeContent contentSize blocks)
    let length := ahead.length - rest.length
    return (bytes.drop length, p.advance limit length)
  | _, _ =>
    if largestWindow < h.window then throw .corrupt
    let buffers := p.buffers.forFrame h
    let r : BlockRules := ⟨p.output.size, h.blockSize, h.contentSize, buffers.output⟩
    unpackBlocks limit r (bytes.length + 1) bytes { p with buffers }

/-- Unpacks one frame. At its end what has come is handed on. -/
def unpackFrame (limit : Nat) (bytes : List UInt8) (p : Progress) :
    Except Stop (List UInt8 × Progress) := do
  let (number, rest) ← p.output.expect (takeNumber 4 bytes)
  if isSkippable number then
    let (size, rest) ← p.output.expect (takeNumber 4 rest)
    let (_, rest) ← p.output.expect (takeBytes size rest)
    return (rest, { p with buffers := p.buffers.forSkippable size }.advance limit (8 + size))
  else if number ≠ magic then throw .corrupt
  else
    let (header, rest) ← p.output.expect (takeHeader rest)
    let opening := bytes.length - rest.length
    let ahead := rest.take (p.pieceLeft - opening)
    let (rest, p) ← unpackContent limit header ahead rest (p.advance limit opening)
    return (rest, p.settle limit)

/-- Unpacks frames until there is enough content or the stream ends. A frame takes at least four
bytes, so the number of bytes left bounds the number of frames. -/
def unpackFrames (limit : Nat) : Nat → List UInt8 → Progress → Except Stop Output
  | 0, _, _ => .error .corrupt
  | fuel + 1, bytes, p => do
    let (bytes, p) ← unpackFrame limit bytes p
    if bytes.isEmpty || limit ≤ p.output.size then return p.output
    else unpackFrames limit fuel bytes p

/-- At most `limit` bytes of the content of a stream. -/
def decompress (limit : Nat) (stream : List UInt8) : Option (List UInt8) :=
  unpackStream piece limit
    (fun arrived => unpackFrames limit (arrived.length + 1) arrived (.start limit)) stream

end Zstandard

end PointPatch
