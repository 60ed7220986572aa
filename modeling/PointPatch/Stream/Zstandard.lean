/-
PointPatch/Stream/Zstandard.lean

The Zstandard format as a stream codec, and buffers of known length on top of
it.  Any compressor of the format would do; this one stores the bytes as they
are, so the level makes no difference.

A prefixed stream begins with the length of its content in eight bytes.  The
stated length is compared with the expected one before anything is unpacked,
and the length of what comes out afterwards.
-/
import PointPatch.Bytes.Chunk
import PointPatch.Fault
import PointPatch.Stream.Codec
import PointPatch.Stream.Frames

namespace PointPatch

namespace Zstandard

/-- A block of bytes stored as they are. -/
def storedBlock (isLast : Bool) (bytes : List UInt8) : List UInt8 :=
  Word.toLittle 3 (8 * bytes.length + if isLast then 1 else 0) ++ bytes

/-- Bytes as `full` full blocks and a last one. -/
def storedBlocks : Nat → List UInt8 → List UInt8
  | 0, bytes => storedBlock true bytes
  | full + 1, bytes =>
    storedBlock false (bytes.take largestBlock) ++ storedBlocks full (bytes.drop largestBlock)

/-- The frame of some bytes, with a window of eight MiB. -/
def store (bytes : List UInt8) : List UInt8 :=
  Word.toLittle 4 magic ++ [0x00, 0x68]
    ++ storedBlocks ((bytes.length - 1) / largestBlock) bytes

/-- The Zstandard format. -/
def codec : StreamCodec where
  pack _ bytes := store bytes
  unpack := decompress

/-! ### Streams with the length in front -/

/-- How many bytes state the length. -/
def lengthBytes : Nat := 8

/-- The stream of some bytes, their length in front. -/
def encode (z : StreamCodec) (level : Int) (bytes : List UInt8) : List UInt8 :=
  Word.toLittle lengthBytes bytes.length ++ z.pack level bytes

/-- The content of a stream with the length in front, which has to be the expected one. -/
def decode (z : StreamCodec) (expected : Nat) (stream : List UInt8) :
    Except Fault (List UInt8) :=
  if stream.length < lengthBytes then .error .zstdNoLength
  else
    let stated := Word.ofLittle (stream.take lengthBytes)
    if stated ≠ expected then .error (.zstdLength stated expected)
    else
      match z.unpack (expected + 1) (stream.drop lengthBytes) with
      | none => .error .zstdStream
      | some content =>
        if content.length = expected then .ok content
        else .error (.zstdContent expected content.length)

end Zstandard

end PointPatch
