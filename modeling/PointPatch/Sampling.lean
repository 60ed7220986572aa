/-
PointPatch/Sampling.lean

What has been seen of the columns of a schema, and which mode it speaks for.

For every dimension the maximal runs and the shared leading bits of its raw
columns are counted over all patches seen.  From these follow the sizes that
its columns would have in each mode, and the mode that is advised.  Runs win
where they save three quarters, shared bits where the raw size is more than
1.6 times theirs; all else is left to the compressed stream, as are columns
of doubles.
-/
import PointPatch.Engine
import PointPatch.Json.Printer
import PointPatch.Notice
import PointPatch.Patch.Basic

namespace PointPatch

/-- What has been seen of one dimension. -/
structure Tally where
  /-- The maximal runs of all columns. -/
  runs : Nat := 0
  /-- The shared leading bits of all columns. -/
  sharedBits : Nat := 0
  /-- The mode that is advised. -/
  advice : Mode := .raw
deriving DecidableEq, Repr

/-- What has been seen of the columns of a schema. -/
structure Sampling where
  /-- The points of all patches seen. -/
  points : Nat := 0
  /-- The number of patches seen. -/
  patches : Nat := 0
  /-- What has been seen of each dimension. -/
  tallies : List Tally
deriving DecidableEq, Repr

namespace Sampling

/-- Nothing seen yet of a schema. -/
def start (schema : Schema) : Sampling :=
  { tallies := List.replicate schema.slotCount {} }

/-- The mode that is advised for the dimension in a place. -/
def advice? (s : Sampling) (position : Nat) : Option Mode :=
  s.tallies[position]?.map Tally.advice

/-! ### Advice -/

/-- The ratio of sizes above which shared bits are advised. -/
def sharedBitsRatio : Double := Double.ofDecimal false 16 (-1)

/-- The ratio of sizes above which runs are advised. -/
def runsRatio : Double := Double.ofNat 4

/-- The size of all columns of a dimension without compression. -/
def rawSize (s : Sampling) (d : Dimension) : Double := .ofNat (s.points * d.size)

/-- The size of all columns of a dimension as runs. -/
def runsSize (d : Dimension) (t : Tally) : Double := .ofNat (t.runs * (d.size + 1))

/-- The bits of a value that are not shared, on average over the patches seen. -/
def ownBits (s : Sampling) (d : Dimension) (t : Tally) : Nat :=
  8 * d.size - t.sharedBits / max s.patches 1

/-- The size of all columns of a dimension without the shared bits. -/
def sharedBitsSize (s : Sampling) (d : Dimension) (t : Tally) : Double :=
  .ofNat (s.patches * 2 * d.size)
    + Double.ofNat s.points * Double.ofNat (s.ownBits d t) / Double.ofNat 8

/-- The mode that the counts of a dimension speak for. -/
def recommend (s : Sampling) (d : Dimension) (t : Tally) : Mode :=
  if d.type = .float64 then .deflate
  else if runsRatio.lt (s.rawSize d / runsSize d t) then .rle
  else if sharedBitsRatio.lt (s.rawSize d / s.sharedBitsSize d t) then .sigbits
  else .deflate

/-! ### Seeing a patch -/

/-- Adds counts of runs and shared bits, in order. -/
def addCounts : List Tally → List (Nat × Nat) → List Tally
  | t :: ts, (runs, bits) :: counts =>
    { t with runs := t.runs + runs, sharedBits := t.sharedBits + bits } :: addCounts ts counts
  | ts, _ => ts

/-- Advises a mode for each dimension, in order. -/
def advise (s : Sampling) : List Dimension → List Tally → List Tally
  | d :: ds, t :: ts => { t with advice := s.recommend d t } :: advise s ds ts
  | _, ts => ts

/-- Takes in the counts of a patch. -/
def take (s : Sampling) (dimensions : List Dimension) (points : Nat)
    (counts : List (Nat × Nat)) : Sampling :=
  let s : Sampling :=
    { points := s.points + points, patches := s.patches + 1,
      tallies := addCounts s.tallies counts }
  { s with tallies := s.advise dimensions s.tallies }

/-- The runs and the shared bits of the raw form of a column. -/
def counts (z : ColumnCodec) (c : Column) : Except Fault (Nat × Nat) := do
  let raw ← c.decode z
  let runs ← raw.runCount
  let bits ← raw.sharedBitCount
  return (runs, bits)

/-- Takes in a patch, which has to have as many slots as are being watched. -/
def update (z : ColumnCodec) (s : Sampling) (p : ColumnPatch) : Except Fault Sampling := do
  if p.schema.slotCount ≠ s.tallies.length then
    throw (.samplingWidth s.tallies.length p.schema.pcid p.schema.slotCount)
  let counts ← p.columns.mapM (counts z)
  return s.take p.schema.dimensions p.count counts

/-- What is reported when a patch has been taken in. -/
def adviceNotices (s : Sampling) (dimensions : List Dimension) : List Notice :=
  (dimensions.zip s.tallies).map fun (d, t) => .advice d.name s.points t.advice

/-- What is reported when a patch is taken in. -/
def updateNotices (z : ColumnCodec) (s : Sampling) (p : ColumnPatch) : List Notice :=
  match s.update z p with
  | .ok s => s.adviceNotices p.schema.dimensions
  | .error _ => []

/-! ### Subsets and documents -/

/-- What has been seen of the dimensions in some places. -/
def subset (s : Sampling) (positions : List Nat) : Except Fault Sampling := do
  let tallies ← positions.mapM fun position =>
    match s.tallies[position]? with
    | some t => .ok t
    | none => .error (.indexOutOfRange position s.tallies.length)
  return { s with tallies }

/-- The document of a tally. -/
def tallyJson (t : Tally) : Json :=
  .ofMembers
    [("recommended_compression", .ofString t.advice.key),
     ("total_commonbits", .ofNat t.sharedBits), ("total_runs", .ofNat t.runs)]

/-- The document of all that has been seen. -/
def toJson (s : Sampling) : Json :=
  .ofMembers
    [("dims", .array (s.tallies.map tallyJson)), ("ndims", .ofNat s.tallies.length),
     ("total_patches", .ofNat s.patches), ("total_points", .ofNat s.points)]

/-- The text of all that has been seen. -/
def text (s : Sampling) : String := s.toJson.compact

end Sampling

end PointPatch
