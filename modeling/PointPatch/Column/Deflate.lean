/-
PointPatch/Column/Deflate.lean

Column payloads as compressed streams.  The length of the content is known
beforehand, from the number of elements; a stream that holds more or fewer
bytes is refused, and no more than one byte too many is ever produced.
-/
import PointPatch.Fault
import PointPatch.Stream.Codec

namespace PointPatch

namespace Deflate

/-- The content of a stream that has to hold exactly `expected` bytes. -/
def decode (z : StreamCodec) (expected : Nat) (stream : List UInt8) :
    Except Fault (List UInt8) :=
  match z.unpack (expected + 1) stream with
  | none => .error .deflateStream
  | some content =>
    if content.length = expected then .ok content
    else .error (.deflateLength expected content.length)

/-- What `decode` returns has the expected length. -/
theorem length_of_decode {z : StreamCodec} {expected : Nat} {stream content : List UInt8}
    (h : decode z expected stream = .ok content) : content.length = expected := by
  unfold decode at h
  split at h
  · cases h
  · split at h
    · cases h
      assumption
    · cases h

end Deflate

end PointPatch
