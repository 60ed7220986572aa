/-
PointPatch/Stream/Deflate.lean

The zlib format as a stream codec.  Any compressor of the format would do;
this one stores the bytes as they are, in blocks of at most 65535 bytes, so
the level makes no difference.
-/
import PointPatch.Stream.Codec
import PointPatch.Stream.Inflate

namespace PointPatch

namespace Deflate

/-- The longest block of bytes stored as they are. -/
def longestBlock : Nat := 65535

/-- The block header of `length` bytes stored as they are. -/
def storedHeader (isLast : Bool) (length : Nat) : List UInt8 :=
  (if isLast then 1 else 0) :: Word.toLittle 2 length ++ Word.toLittle 2 (65535 - length)

/-- Bytes as `full` full blocks and a last one. -/
def storedBlocks : Nat → List UInt8 → List UInt8
  | 0, bytes => storedHeader true bytes.length ++ bytes
  | full + 1, bytes =>
    storedHeader false longestBlock ++ bytes.take longestBlock
      ++ storedBlocks full (bytes.drop longestBlock)

/-- The stream of some bytes. -/
def store (bytes : List UInt8) : List UInt8 :=
  [0x78, 0x01] ++ storedBlocks ((bytes.length - 1) / longestBlock) bytes
    ++ Word.toBytes .big 4 (checksum bytes)

/-- The zlib format. -/
def codec : StreamCodec where
  pack _ bytes := store bytes
  unpack := inflate

end Deflate

end PointPatch
