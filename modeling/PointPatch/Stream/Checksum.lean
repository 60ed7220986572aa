/-
PointPatch/Stream/Checksum.lean

The checksum at the end of a zlib stream: two running sums modulo 65521, the
second one summing the values of the first.
-/

namespace PointPatch

namespace Deflate

/-- The checksum of some bytes. -/
def checksum (bytes : List UInt8) : Nat :=
  let sums := bytes.foldl
    (fun (s : Nat × Nat) b =>
      let low := (s.1 + b.toNat) % 65521
      (low, (s.2 + low) % 65521))
    (1, 0)
  sums.2 * 65536 + sums.1

end Deflate

end PointPatch
