/-
PointPatch/Stream/Codec.lean

Compressed streams, as far as the rest of the library is concerned.  A codec
packs bytes at a level and unpacks a stream; how the stream looks is its own
affair.  Unpacking stops at a limit, so that a short stream cannot make an
arbitrarily long buffer; it may go some way ahead of the limit, and fail for
what it finds there.

`Lossless` is what is asked of a codec: unpacking what it packed gives the
bytes back, or as many of them as the limit allows.
-/

namespace PointPatch

/-- A way to compress bytes into a stream. -/
structure StreamCodec where
  /-- The stream of some bytes, at a compression level. -/
  pack : Int → List UInt8 → List UInt8
  /-- At most `limit` bytes of the content of a stream; none for a stream that is corrupt as far
  as it is unpacked. -/
  unpack : Nat → List UInt8 → Option (List UInt8)

/-- Unpacking gives back what was packed, up to the limit. -/
def StreamCodec.Lossless (z : StreamCodec) : Prop :=
  ∀ level bytes limit, z.unpack limit (z.pack level bytes) = some (bytes.take limit)

end PointPatch
