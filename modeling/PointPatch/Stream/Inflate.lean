/-
PointPatch/Stream/Inflate.lean

Unpacking of zlib streams.

A stream is a two byte header, a sequence of blocks, and a checksum of the
content.  Blocks are read as bits, least significant first.  A block holds
its bytes as they are, or codes them as literals and references to earlier
output, with two prefix codes that are fixed or described at its start.
Reading ends with the last block; whatever follows the checksum is ignored.

Output is made in windows of 32 KiB, each of which is filled before any of it
is handed on.  Before the first window there are zeros, and references may
reach into them.
-/
import PointPatch.Bytes.Word
import PointPatch.Stream.Output
import PointPatch.Stream.Checksum
import PointPatch.Stream.Huffman

namespace PointPatch

namespace Deflate

/-! ### Bits -/

/-- The bits of a byte, least significant first. -/
def bitsOfByte (b : UInt8) : List Bool :=
  (List.range 8).map b.toNat.testBit

/-- The number whose bits are given least significant first. -/
def numberOfBits : List Bool → Nat
  | [] => 0
  | b :: bits => b.toNat + 2 * numberOfBits bits

/-- Reads an `n` bit number. -/
def takeNumber (n : Nat) (bits : List Bool) : Except Flaw (Nat × List Bool) :=
  let field := bits.take n
  if field.length < n then .error .missing else .ok (numberOfBits field, bits.drop n)

/-- Skips to the next byte. What is left of a stream ends at a byte, so the bits to skip are
those in excess of whole bytes. -/
def alignToByte (bits : List Bool) : List Bool :=
  bits.drop (bits.length % 8)

/-! ### Blocks of bytes as they are -/

/-- Copies `n` bytes to the output. -/
def copyStored (bound : Nat) : Nat → List Bool → Output → Except Stop (List Bool × Output)
  | 0, bits, out => .ok (bits, out)
  | n + 1, bits, out => do
    let (b, bits) ← out.expect (takeNumber 8 bits)
    let out ← out.push bound (UInt8.ofNat b)
    copyStored bound n bits out

/-- Unpacks a block of bytes as they are: the length, its complement, the bytes. -/
def storedBlock (bound : Nat) (bits : List Bool) (out : Output) :
    Except Stop (List Bool × Output) := do
  let (length, bits) ← out.expect (takeNumber 16 (alignToByte bits))
  let (complement, bits) ← out.expect (takeNumber 16 bits)
  if length + complement ≠ 65535 then throw .corrupt
  copyStored bound length bits out

/-! ### Coded blocks -/

/-- The shortest length of each length symbol and the number of bits added to it. -/
def lengthTable : List (Nat × Nat) :=
  [(3, 0), (4, 0), (5, 0), (6, 0), (7, 0), (8, 0), (9, 0), (10, 0), (11, 1), (13, 1), (15, 1),
   (17, 1), (19, 2), (23, 2), (27, 2), (31, 2), (35, 3), (43, 3), (51, 3), (59, 3), (67, 4),
   (83, 4), (99, 4), (115, 4), (131, 5), (163, 5), (195, 5), (227, 5), (258, 0)]

/-- The shortest distance of each distance symbol and the number of bits added to it. -/
def distanceTable : List (Nat × Nat) :=
  [(1, 0), (2, 0), (3, 0), (4, 0), (5, 1), (7, 1), (9, 2), (13, 2), (17, 3), (25, 3), (33, 4),
   (49, 4), (65, 5), (97, 5), (129, 6), (193, 6), (257, 7), (385, 7), (513, 8), (769, 8),
   (1025, 9), (1537, 9), (2049, 10), (3073, 10), (4097, 11), (6145, 11), (8193, 12),
   (12289, 12), (16385, 13), (24577, 13)]

/-- The value that a symbol stands for, completed by the bits that follow it. -/
def takeExtended (table : List (Nat × Nat)) (symbol : Nat) (bits : List Bool) :
    Except Flaw (Nat × List Bool) :=
  match table[symbol]? with
  | none => .error .wrong
  | some (least, extra) => do
    let (more, bits) ← takeNumber extra bits
    return (least + more, bits)

/-- The first `n` bytes of a pattern repeated without end, coming from `current`. -/
def repeatPattern (pattern : List UInt8) : Nat → List UInt8 → List UInt8
  | 0, _ => []
  | n + 1, b :: current => b :: repeatPattern pattern n current
  | n + 1, [] =>
    match pattern with
    | [] => []
    | b :: current => b :: repeatPattern pattern n current

/-- Repeats `length` bytes of the output from `distance` bytes back. The stretch may begin in
the zeros before the output, and may run into the bytes it makes itself. -/
def copyEarlier (bound length distance : Nat) (out : Output) : Except Stop Output :=
  let pattern := List.replicate (distance - out.size) 0 ++ (out.recent.take distance).reverse
  out.pushAll bound (repeatPattern pattern length pattern)

/-- Unpacks a coded block up to its end symbol. Every symbol takes at least one bit, so the
number of bits left bounds the number of steps. -/
def codedSymbols (bound : Nat) (literals distances : PrefixCode) :
    Nat → List Bool → Output → Except Stop (List Bool × Output)
  | 0, _, _ => .error .corrupt
  | fuel + 1, bits, out => do
    let (symbol, bits) ← out.expect (literals.decode bits)
    if symbol < 256 then
      let out ← out.push bound (UInt8.ofNat symbol)
      codedSymbols bound literals distances fuel bits out
    else if symbol = 256 then
      return (bits, out)
    else
      let (length, bits) ← out.expect (takeExtended lengthTable (symbol - 257) bits)
      let (symbol, bits) ← out.expect (distances.decode bits)
      let (distance, bits) ← out.expect (takeExtended distanceTable symbol bits)
      let out ← copyEarlier bound length distance out
      codedSymbols bound literals distances fuel bits out

/-- The fixed code of literals and lengths. -/
def fixedLiterals : PrefixCode :=
  .ofLengths (List.replicate 144 8 ++ List.replicate 112 9 ++ List.replicate 24 7
    ++ List.replicate 8 8)

/-- The fixed code of distances. -/
def fixedDistances : PrefixCode :=
  .ofLengths (List.replicate 32 5)

/-- The symbols of the code for word lengths, in the order in which their own word lengths are
written. -/
def lengthOrder : List Nat :=
  [16, 17, 18, 0, 8, 7, 9, 6, 10, 5, 11, 4, 12, 3, 13, 2, 14, 1, 15]

/-- Reads `n` three bit numbers. -/
def takeTriples : Nat → List Bool → Except Flaw (List Nat × List Bool)
  | 0, bits => .ok ([], bits)
  | n + 1, bits => do
    let (length, bits) ← takeNumber 3 bits
    let (lengths, bits) ← takeTriples n bits
    return (length :: lengths, bits)

/-- Reads word lengths until there are `total` of them; `done` holds those read, latest first.
Three symbols stand for repetitions. -/
def takeLengths (c : PrefixCode) (total : Nat) :
    Nat → List Nat → List Bool → Except Flaw (List Nat × List Bool)
  | 0, _, _ => .error .wrong
  | fuel + 1, done, bits =>
    if total = done.length then .ok (done.reverse, bits)
    else if total < done.length then .error .wrong
    else do
      let (symbol, bits) ← c.decode bits
      if symbol < 16 then takeLengths c total fuel (symbol :: done) bits
      else if symbol = 16 then
        match done with
        | [] => throw .wrong
        | last :: _ =>
          let (more, bits) ← takeNumber 2 bits
          takeLengths c total fuel (List.replicate (3 + more) last ++ done) bits
      else if symbol = 17 then
        let (more, bits) ← takeNumber 3 bits
        takeLengths c total fuel (List.replicate (3 + more) 0 ++ done) bits
      else
        let (more, bits) ← takeNumber 7 bits
        takeLengths c total fuel (List.replicate (11 + more) 0 ++ done) bits

/-- Reads the two codes that are described at the start of a block. -/
def takeCodes (bits : List Bool) : Except Flaw ((PrefixCode × PrefixCode) × List Bool) := do
  let (literalCount, bits) ← takeNumber 5 bits
  let (distanceCount, bits) ← takeNumber 5 bits
  let (lengthCount, bits) ← takeNumber 4 bits
  if 29 < literalCount ∨ 29 < distanceCount then throw .wrong
  let (written, bits) ← takeTriples (lengthCount + 4) bits
  let pairs := lengthOrder.zip written
  let lengthCode := PrefixCode.ofLengths
    ((List.range 19).map fun s => (pairs.lookup s).getD 0)
  if !lengthCode.isComplete then throw .wrong
  let total := literalCount + 257 + (distanceCount + 1)
  let (lengths, bits) ← takeLengths lengthCode total (total + 1) [] bits
  let literals := PrefixCode.ofLengths (lengths.take (literalCount + 257))
  let distances := PrefixCode.ofLengths (lengths.drop (literalCount + 257))
  if !literals.isUsable || !distances.isUsable then throw .wrong
  return ((literals, distances), bits)

/-! ### Streams -/

/-- Unpacks blocks up to the last one. A block takes at least three bits, so the number of bits
left bounds the number of blocks. -/
def blocks (bound : Nat) : Nat → List Bool → Output → Except Stop (List Bool × Output)
  | 0, _, _ => .error .corrupt
  | fuel + 1, bits, out => do
    let (last, bits) ← out.expect (takeNumber 1 bits)
    let (kind, bits) ← out.expect (takeNumber 2 bits)
    let (bits, out) ←
      if kind = 0 then storedBlock bound bits out
      else if kind = 1 then
        codedSymbols bound fixedLiterals fixedDistances (bits.length + 1) bits out
      else if kind = 2 then do
        let ((literals, distances), bits) ← out.expect (takeCodes bits)
        codedSymbols bound literals distances (bits.length + 1) bits out
      else throw .corrupt
    if last = 1 then return (bits, out) else blocks bound fuel bits out

/-- Whether two bytes open a stream: the method is the known one, the window is not too large,
no dictionary is asked for, and the check bits are right. -/
def isHeader (method flags : UInt8) : Bool :=
  method.toNat % 16 == 8 && method.toNat / 16 ≤ 7 && flags.toNat / 32 % 2 == 0
    && (method.toNat * 256 + flags.toNat) % 31 == 0

/-- Unpacks a stream and compares its checksum. -/
def run (bound : Nat) (stream : List UInt8) : Except Stop Output :=
  match stream with
  | method :: flags :: rest => do
    if !isHeader method flags then throw .corrupt
    let bits := rest.flatMap bitsOfByte
    let (bits, out) ← blocks bound (bits.length + 1) bits .empty
    let (trailer, _) ← out.expect (takeNumber 32 (alignToByte bits))
    let stated := Word.ofBytes .big (Word.toLittle 4 trailer)
    if stated ≠ checksum out.content then throw .corrupt
    return out
  | _ => .error (.halted .empty)

/-- How much output is made before any of it is handed on. -/
def window : Nat := Nat.pow 2 15

/-- How much of a stream arrives at a time. -/
def piece : Nat := Nat.pow 2 15

/-- At most `limit` bytes of the content of a stream, which is unpacked to the end of the window
that the limit falls into. -/
def inflate (limit : Nat) (stream : List UInt8) : Option (List UInt8) :=
  unpackStream piece limit (run ((limit + window - 1) / window * window)) stream

end Deflate

end PointPatch
