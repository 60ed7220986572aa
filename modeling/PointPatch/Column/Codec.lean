/-
PointPatch/Column/Codec.lean

What columns are stored and read with: the format of compressed streams, and
the memory that elements are put into.  A format on its own is taken to run on
a machine with a tebibyte.
-/
import PointPatch.Memory
import PointPatch.Stream.Codec

namespace PointPatch

/-- What columns are stored and read with. -/
structure ColumnCodec extends StreamCodec where
  /-- The memory that elements are put into. -/
  memory : Memory := .tebibyte

instance : Coe StreamCodec ColumnCodec := ⟨fun z => { z with }⟩

instance : CoeOut ColumnCodec StreamCodec := ⟨ColumnCodec.toStreamCodec⟩

end PointPatch
