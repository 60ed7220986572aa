/-
PointPatch/Proofs/Patch/Summaries.lean

Bounds and summaries that are computed in place.

A patch that is held as rows has its bounds and its summary computed where they
stand.  Any other is brought to rows beside itself: one column after another is
decoded, then each is measured, and a codec has to be there before it is asked.
Bounds and summary are computed on the copy, and the field that was asked for is
written back.  All of this is one operation (`refresh`), of which the parts that
may fail only read; so it comes to what the library says, in whatever form the
patch is held, and a failure leaves no trace (`run_refresh`).
-/
import PointPatch.Proofs.Patch.WellFormed

namespace PointPatch

namespace Patch

/-- Operations that write into a patch, and may fail with parts of it written. -/
abbrev Writing := EStateM Fault Patch

namespace Writing

/-! ### Reading -/

/-- The rows that columns are woven to, once all of them have been decoded and measured. -/
def weaveBeside (z : ColumnCodec) (p : ColumnPatch) : Writing RowPatch := do
  let raws ← p.columns.mapM fun c => MonadExcept.ofExcept (c.decode z)
  (p.schema.dimensions.zip raws).forM fun x =>
    MonadExcept.ofExcept (ColumnPatch.checkLength p.count x.1 x.2)
  return RowPatch.ofHeader p.toPatchHeader (ColumnPatch.weave p.schema p.count raws).flatten

/-- The rows that a codec gives back, once they have been measured. -/
def unpackBeside (e : Engine) (p : BlobPatch) : Writing RowPatch := do
  let codec ← MonadExcept.ofExcept e.blobCodec
  let rows ← MonadExcept.ofExcept (codec.decode p.schema p.blob (UInt32.ofNat p.count))
  if rows.length ≠ p.schema.size * p.count then
    throw (.codecLength codec.name rows.length p.count p.schema.size)
  return RowPatch.ofHeader p.toPatchHeader rows

/-- The patch held as rows, beside the patch itself. -/
def rowsBeside (e : Engine) : Writing RowPatch := do
  match ← get with
  | .rows p => return p
  | .columns p => weaveBeside e.deflate p
  | .blob p => unpackBeside e p

theorem weaveBeside_eq (z : ColumnCodec) (p : ColumnPatch) :
    weaveBeside z p = MonadExcept.ofExcept (p.toRows z) := by
  have hsteps : p.toRows z = p.columns.mapM (Column.decode z) >>= fun raws =>
      ((p.schema.dimensions.zip raws).forM fun x => ColumnPatch.checkLength p.count x.1 x.2)
        >>= fun _ => .ok (RowPatch.ofHeader p.toPatchHeader
          (ColumnPatch.weave p.schema p.count raws).flatten) := by
    rw [ColumnPatch.toRows, ColumnPatch.decode]
    cases p.columns.mapM (Column.decode z) <;> rfl
  rw [weaveBeside, hsteps, mapM_ofExcept, ofExcept_bind]
  congr 1
  funext raws
  rw [forM_ofExcept, ofExcept_bind]
  rfl

theorem unpackBeside_eq (e : Engine) (p : BlobPatch) :
    unpackBeside e p = MonadExcept.ofExcept ((Patch.blob p).toRows e) := by
  have hsteps : (Patch.blob p).toRows e = e.blobCodec >>= fun codec => p.toRows codec := rfl
  rw [unpackBeside, hsteps, ofExcept_bind]
  congr 1
  funext codec
  rw [BlobPatch.toRows, ofExcept_bind]
  congr 1
  funext rows
  split <;> rfl

/-- The rows are there beside the patch, or a fault is; the patch itself has not changed. -/
theorem run_rowsBeside (e : Engine) (p : Patch) :
    (rowsBeside e).run p = (MonadExcept.ofExcept (p.toRows e) : Writing RowPatch).run p := by
  cases p with
  | rows p => rfl
  | columns p => exact congrArg (fun m => m.run (.columns p)) (weaveBeside_eq e.deflate p)
  | blob p => exact congrArg (fun m => m.run (.blob p)) (unpackBeside_eq e p)

/-! ### Writing -/

/-- Writes the bounds. -/
def writeBounds (bounds : Bounds) : Writing Unit :=
  modify fun p => p.withHeader { p.header with bounds }

/-- Writes the summary. -/
def writeSummary (summary : Option Summary) : Writing Unit :=
  modify fun p => p.withHeader { p.header with summary }

/-- Computes a part of the header anew: where it stands, if the patch is held as rows, and else on
rows beside the patch, from where it is written back. -/
def refresh (e : Engine) (compute : RowPatch → RowPatch) (writeBack : RowPatch → Writing Unit) :
    Writing Unit := do
  match ← get with
  | .rows p => set (Patch.rows (compute p))
  | _ =>
    let raw ← rowsBeside e
    writeBack (compute raw)

end Writing

open Writing

/-- Computes the bounds anew. -/
def computeBoundsInPlace (e : Engine) : Writing Unit :=
  refresh e RowPatch.computeBounds fun raw => writeBounds raw.bounds

/-- Computes the summary anew. -/
def computeSummaryInPlace (e : Engine) : Writing Unit :=
  refresh e RowPatch.computeSummary fun raw => writeSummary raw.summary

/-- Computes both anew. -/
def summariseInPlace (e : Engine) : Writing Unit :=
  refresh e RowPatch.summarise fun raw => do
    writeBounds raw.bounds
    writeSummary raw.summary

variable {e : Engine} {p q : Patch} {raw : RowPatch} {compute : RowPatch → RowPatch}
  {writeBack : RowPatch → Writing Unit} {part : PatchHeader → PatchHeader → PatchHeader}

/-! ### Parts of the header -/

/-- What is computed where it stands is also what is written back: a part of the new header put into
the old one, neither the schema nor the number of points. -/
structure Refreshes (compute : RowPatch → RowPatch) (writeBack : RowPatch → Writing Unit)
    (part : PatchHeader → PatchHeader → PatchHeader) : Prop where
  compute_eq : ∀ p,
    compute p = { p with toPatchHeader := part (compute p).toPatchHeader p.toPatchHeader }
  writeBack_eq : ∀ raw p,
    (writeBack raw).run p = .ok () (p.withHeader (part raw.toPatchHeader p.header))
  schema_eq : ∀ new old, (part new old).schema = old.schema
  count_eq : ∀ new old, (part new old).count = old.count

theorem refreshes_bounds :
    Refreshes RowPatch.computeBounds (fun raw => writeBounds raw.bounds)
      fun new old => { old with bounds := new.bounds } :=
  ⟨fun _ => rfl, fun _ _ => rfl, fun _ _ => rfl, fun _ _ => rfl⟩

theorem refreshes_summary :
    Refreshes RowPatch.computeSummary (fun raw => writeSummary raw.summary)
      fun new old => { old with summary := new.summary } :=
  ⟨fun _ => rfl, fun _ _ => rfl, fun _ _ => rfl, fun _ _ => rfl⟩

theorem refreshes_both :
    Refreshes RowPatch.summarise
      (fun raw => do writeBounds raw.bounds; writeSummary raw.summary)
      fun new old => { old with bounds := new.bounds, summary := new.summary } :=
  ⟨fun _ => rfl, fun _ p => by cases p <;> rfl, fun _ _ => rfl, fun _ _ => rfl⟩

/-- A part of the header is computed anew from the rows, or nothing is written. -/
theorem run_refresh (h : Refreshes compute writeBack part) (p : Patch) :
    (refresh e compute writeBack).run p = match p.toRows e with
      | .ok raw => .ok () (p.withHeader (part (compute raw).toPatchHeader p.header))
      | .error fault => .error fault p := by
  have hbeside : ((rowsBeside e >>= fun raw => writeBack (compute raw)) : Writing Unit).run p
      = match p.toRows e with
        | .ok raw => .ok () (p.withHeader (part (compute raw).toPatchHeader p.header))
        | .error fault => .error fault p := by
    rw [run_bind, run_rowsBeside]
    cases p.toRows e with
    | error fault => rfl
    | ok raw => exact h.writeBack_eq (compute raw) p
  cases p with
  | rows p => exact congrArg (fun q => EStateM.Result.ok () (Patch.rows q)) (h.compute_eq p)
  | columns p => exact hbeside
  | blob p => exact hbeside

/-- A part of the header is computed from the rows of a patch: where the patch can be held as rows, it
becomes what it becomes there, all else stays, and the rows with it; and where it cannot, the
operation fails for this reason, and the patch stays what it was. -/
structure ComputesFromRows (e : Engine) (m : Writing Unit)
    (part : PatchHeader → PatchHeader → PatchHeader) (p : Patch) : Prop where
  succeeds_iff : (∃ q, m.run p = .ok () q) ↔ ∃ raw, p.toRows e = .ok raw
  writes : ∀ raw, p.toRows e = .ok raw → ∃ q u, m.run p = .ok () q
    ∧ m.run (.rows raw) = .ok () u ∧ q = p.withHeader (part u.header p.header)
  keepsRows : ∀ raw q, p.toRows e = .ok raw → m.run p = .ok () q →
    ∃ raw', q.toRows e = .ok raw' ∧ raw'.rows = raw.rows
  untouched : ∀ fault q, m.run p = .error fault q → p.toRows e = .error fault ∧ q = p

theorem computesFromRows_refresh (h : Refreshes compute writeBack part) (e : Engine) (p : Patch) :
    ComputesFromRows e (refresh e compute writeBack) part p := by
  have hrun := run_refresh (e := e) h p
  rcases hrows : p.toRows e with fault | raw
  · -- the patch cannot be held as rows
    rw [hrows] at hrun
    refine ⟨?_, ?_, ?_, ?_⟩
    · rw [hrun, hrows]
      exact iff_of_false (fun ⟨q, hq⟩ => by cases hq) (fun ⟨raw, hraw⟩ => by cases hraw)
    · intro raw hraw
      rw [hrows] at hraw
      cases hraw
    · intro raw q hraw
      rw [hrows] at hraw
      cases hraw
    · intro fault' q hq
      rw [hrun] at hq
      cases hq
      exact ⟨hrows, rfl⟩
  · rw [hrows] at hrun
    refine ⟨?_, ?_, ?_, ?_⟩
    · exact iff_of_true ⟨_, hrun⟩ ⟨raw, hrows⟩
    · intro raw' hraw'
      obtain rfl := Except.ok.inj (hrows.symm.trans hraw')
      exact ⟨_, .rows (compute raw), hrun, rfl, rfl⟩
    · intro raw' q hraw' hq
      obtain rfl := Except.ok.inj (hrows.symm.trans hraw')
      rw [hrun] at hq
      cases hq
      exact toRows_withHeader hrows _ (h.schema_eq _ _) (h.count_eq _ _)
    · intro fault q hq
      rw [hrun] at hq
      cases hq

theorem ComputesFromRows.run_eq_error {m : Writing Unit} (h : ComputesFromRows e m part p)
    {fault : Fault} (hrows : p.toRows e = .error fault) : m.run p = .error fault p := by
  rcases hrun : m.run p with ⟨⟨⟩, q⟩ | ⟨fault', q⟩
  · obtain ⟨raw, hraw⟩ := h.succeeds_iff.1 ⟨q, hrun⟩
    rw [hrows] at hraw
    cases hraw
  · obtain ⟨hrows', rfl⟩ := h.untouched fault' q hrun
    rw [hrows] at hrows'
    cases hrows'
    rfl

/-- The patch that comes of an operation, or the one that was there before. -/
def Writing.orUntouched (p : Patch) : Except Fault Patch → EStateM.Result Fault Patch Unit
  | .ok q => .ok () q
  | .error fault => .error fault p

theorem run_computeBoundsInPlace (e : Engine) (p : Patch) :
    (computeBoundsInPlace e).run p = orUntouched p (p.computeBounds e) := by
  rw [computeBoundsInPlace, run_refresh refreshes_bounds, computeBounds]
  cases p.toRows e <;> rfl

theorem run_computeSummaryInPlace (e : Engine) (p : Patch) :
    (computeSummaryInPlace e).run p = orUntouched p (p.computeSummary e) := by
  rw [computeSummaryInPlace, run_refresh refreshes_summary, computeSummary]
  cases p.toRows e <;> rfl

theorem run_summariseInPlace (e : Engine) (p : Patch) :
    (summariseInPlace e).run p = orUntouched p (p.summarise e) := by
  rw [summariseInPlace, run_refresh refreshes_both, summarise]
  cases p.toRows e <;> rfl

/-- A codec that gives back one byte less than it was handed. -/
def shortCodec : BlobCodec where
  name := "short"
  encode _ rows _ := .ok rows
  decode _ blob _ := .ok blob.dropLast

end Patch

end PointPatch
