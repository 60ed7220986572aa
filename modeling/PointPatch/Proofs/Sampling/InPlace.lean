/-
PointPatch/Proofs/Sampling/InPlace.lean

Samplings that are written in place.

A sampling is shared by many patches and changed in place, and what has been
written into it does not go away when a later step fails.  Here the operations
are taken in the order in which they read and write: a patch is taken in by
writing one count after another and then the advice for one dimension after
another; a patch that is stored is taken in by a copy, which is put in place
once every column has been stored.

All of them come to what the library says (`run_updateInPlace`,
`Patch.run_compressInPlace`): either everything is written, or nothing is.
-/
import PointPatch.Patch.Conversion
import PointPatch.Proofs.Patch.Compression

namespace PointPatch

namespace Sampling

/-- Operations on a sampling in place, which may fail with parts of it written. -/
abbrev InPlace := EStateM Fault Sampling

namespace InPlace

variable {α β : Type}

/-- An operation that may fail and does not look at the sampling. -/
def lift (x : Except Fault α) : InPlace α :=
  match x with
  | .ok a => pure a
  | .error fault => throw fault

/-- The sampling that an operation on a copy leaves there. -/
def onCopy (s : Sampling) (m : InPlace α) : InPlace Sampling :=
  match m.run s with
  | .ok _ s' => pure s'
  | .error fault _ => throw fault

/-- All is written, or nothing is: what an operation that returns the new sampling comes to in
place. -/
def allOrNothing (s : Sampling) : Except Fault (α × Sampling) → EStateM.Result Fault Sampling α
  | .ok (a, s') => .ok a s'
  | .error fault => .error fault s

/-- The sampling that is there afterwards. -/
def left : EStateM.Result Fault Sampling α → Sampling
  | .ok _ s => s
  | .error _ s => s

theorem run_lift_bind (x : Except Fault α) (f : α → InPlace β) (s : Sampling) :
    (lift x >>= f).run s = match x with
      | .ok a => (f a).run s
      | .error fault => .error fault s := by
  cases x <;> rfl

theorem lift_eq_ofExcept (x : Except Fault α) : lift x = MonadExcept.ofExcept x := by
  cases x <;> rfl

theorem mapM_lift (f : α → Except Fault β) (xs : List α) :
    (xs.mapM fun x => lift (f x)) = lift (xs.mapM f) := by
  simp only [lift_eq_ofExcept, mapM_ofExcept]

end InPlace

/-! ### Taking in a patch -/

/-- Writes the advice for the dimension in a place. -/
def adviseAt (s : Sampling) (x : Dimension × Nat) : Sampling :=
  match s.tallies[x.2]? with
  | some t => { s with tallies := s.tallies.set x.2 { t with advice := s.recommend x.1 t } }
  | none => s

/-- Takes in a patch.  Once all columns have been counted, points, patches and counts are written,
and then the advice for one dimension after another. -/
def updateInPlace (z : ColumnCodec) (p : ColumnPatch) : InPlace Unit := do
  let s ← get
  if p.schema.slotCount ≠ s.tallies.length then
    throw (.samplingWidth s.tallies.length p.schema.pcid p.schema.slotCount)
  let counts ← p.columns.mapM fun c => InPlace.lift (counts z c)
  modify fun s => { s with points := s.points + p.count }
  modify fun s => { s with patches := s.patches + 1 }
  modify fun s => { s with tallies := addCounts s.tallies counts }
  p.schema.dimensions.zipIdx.forM fun x => modify fun s => s.adviseAt x

/-- Advice only looks at the points and patches of the sampling. -/
theorem advise_withTallies (s : Sampling) (tallies : List Tally) (ds : List Dimension)
    (ts : List Tally) : advise { s with tallies } ds ts = s.advise ds ts := by
  induction ds generalizing ts with
  | nil => cases ts <;> rfl
  | cons d ds ih =>
    cases ts with
    | nil => rfl
    | cons t ts => exact congrArg (List.cons _) (ih ts)

/-- Advice that is written for one dimension after another is the advice for all of them: what has
been written already has no part in the rest. -/
theorem foldl_adviseAt (s : Sampling) (written ts : List Tally) {ds : List Dimension}
    (hs : s.tallies = written ++ ts) (hlength : ds.length ≤ ts.length) :
    (ds.zipIdx written.length).foldl adviseAt s
      = { s with tallies := written ++ s.advise ds ts } := by
  induction ds generalizing s written ts with
  | nil =>
    have hadvise : s.advise [] ts = ts := by cases ts <;> rfl
    rw [hadvise, ← hs]
    rfl
  | cons d ds ih =>
    cases ts with
    | nil => cases hlength
    | cons t ts =>
      obtain ⟨t', ht'⟩ : ∃ t' : Tally, t' = { t with advice := s.recommend d t } := ⟨_, rfl⟩
      have hstep : s.adviseAt (d, written.length)
          = { s with tallies := written ++ t' :: ts } := by
        rw [adviseAt, hs, List.getElem?_append_right (Nat.le_refl _), Nat.sub_self, ht']
        show { s with tallies := (written ++ t :: ts).set written.length _ } = _
        rw [List.set_append_right _ _ (Nat.le_refl _), Nat.sub_self]
        rfl
      have hrest := ih { s with tallies := written ++ t' :: ts } (written ++ [t']) ts
        (by rw [List.append_assoc]; rfl) (Nat.le_of_succ_le_succ hlength)
      rw [List.length_append, List.length_singleton, advise_withTallies, List.append_assoc] at hrest
      rw [List.zipIdx_cons, List.foldl_cons, hstep, hrest, ht']
      rfl

/-- A patch is taken in, or nothing is written. -/
theorem run_updateInPlace (z : ColumnCodec) (s : Sampling) (p : ColumnPatch) :
    (updateInPlace z p).run s
      = InPlace.allOrNothing s ((s.update z p).map fun s' => ((), s')) := by
  rw [update, updateInPlace]
  show EStateM.run (if _ then _ else _) s = _
  by_cases hwidth : p.schema.slotCount ≠ s.tallies.length
  · rw [if_pos hwidth, if_pos hwidth]
    rfl
  rw [if_neg hwidth, if_neg hwidth, InPlace.mapM_lift, InPlace.run_lift_bind]
  cases hcounts : p.columns.mapM (counts z) with
  | error fault => rfl
  | ok counts =>
    have hlength : p.schema.dimensions.length ≤ (addCounts s.tallies counts).length := by
      rw [length_addCounts, ← not_not.1 hwidth]
      exact List.length_filterMap_le _ _
    -- points, patches and counts are there, and the advice is still to be written
    have hadvice := foldl_adviseAt
      { points := s.points + p.count, patches := s.patches + 1,
        tallies := addCounts s.tallies counts } [] _ rfl hlength
    refine (run_forM (fun _ _ => rfl) _ _).trans ?_
    rw [List.length_nil] at hadvice
    rw [hadvice]
    rfl

theorem onCopy_updateInPlace (z : ColumnCodec) (s : Sampling) (p : ColumnPatch) :
    InPlace.onCopy s (updateInPlace z p) = .lift (s.update z p) := by
  rw [InPlace.onCopy, run_updateInPlace]
  cases s.update z p <;> rfl

end Sampling

open Sampling

namespace ColumnPatch

/-! ### Storing columns -/

/-- The copy of the sampling by which a raw patch is stored.  It takes the patch in while not
enough points have been seen. -/
def sampleOnCopy (e : Engine) (s : Sampling) (raw : ColumnPatch) : InPlace Sampling :=
  if s.points < e.config.sampleThreshold then
    .onCopy s (updateInPlace e.deflate raw)
  else pure s

/-- Stores every column in the mode that is advised.  The copy of the sampling that gave the
advice is put in place once every column has been stored. -/
def compressInPlace (e : Engine) (p : ColumnPatch) : InPlace ColumnPatch := do
  let raw ← .lift (p.decode e.deflate)
  let copy ← sampleOnCopy e (← get) raw
  let columns ← raw.columns.zipIdx.mapM fun x => .lift (encodeColumn e copy x.1 x.2)
  set copy
  return { raw with columns }

theorem sampleOnCopy_eq (e : Engine) (s : Sampling) (raw : ColumnPatch) :
    sampleOnCopy e s raw = .lift (sample e s raw) := by
  rw [sampleOnCopy, sample, onCopy_updateInPlace]
  split <;> rfl

/-- The columns are stored and the patch is taken in, or nothing is written. -/
theorem run_compressInPlace (e : Engine) (s : Sampling) (p : ColumnPatch) :
    (p.compressInPlace e).run s = InPlace.allOrNothing s (p.compress e s) := by
  rw [compressInPlace, compress, InPlace.run_lift_bind]
  cases p.decode e.deflate with
  | error fault => rfl
  | ok raw =>
    show EStateM.run (sampleOnCopy e s raw >>= _) s = _
    rw [sampleOnCopy_eq, InPlace.run_lift_bind, ok_bind]
    cases sample e s raw with
    | error fault => rfl
    | ok copy =>
      dsimp only
      rw [InPlace.mapM_lift, InPlace.run_lift_bind, ok_bind]
      show _ = InPlace.allOrNothing s
        ((raw.columns.zipIdx.mapM fun x => encodeColumn e copy x.1 x.2) >>= _)
      cases raw.columns.zipIdx.mapM fun x => encodeColumn e copy x.1 x.2 <;> rfl

end ColumnPatch

namespace Patch

/-- Brings a patch to the form that its schema asks for; columns are stored by what the sampling
advises, which is written in place. -/
def compressInPlace (e : Engine) (p : Patch) : InPlace Patch := do
  if p.isSettled then return p
  match p.schema.target with
  | .rows => return .rows (← .lift (p.toRows e))
  | .columns =>
    let c ← .lift (p.toColumns e)
    return .columns (← c.compressInPlace e)
  | .blob =>
    let codec ← .lift e.blobCodec
    let raw ← .lift (p.toRows e)
    return .blob (← .lift (BlobPatch.ofRows codec raw))

theorem run_compressInPlace (e : Engine) (s : Sampling) (p : Patch) :
    (p.compressInPlace e).run s = InPlace.allOrNothing s (p.compress e s) := by
  rw [compressInPlace, compress]
  by_cases hsettled : p.isSettled = true
  · rw [if_pos hsettled, if_pos hsettled]
    rfl
  rw [if_neg hsettled, if_neg hsettled]
  cases p.schema.target with
  | rows =>
    show EStateM.run (InPlace.lift (p.toRows e) >>= _) s = _
    rw [InPlace.run_lift_bind]
    cases p.toRows e <;> rfl
  | columns =>
    show EStateM.run (InPlace.lift (p.toColumns e) >>= _) s = _
    rw [InPlace.run_lift_bind]
    cases p.toColumns e with
    | error fault => rfl
    | ok c =>
      show EStateM.run (c.compressInPlace e >>= _) s = InPlace.allOrNothing s (c.compress e s >>= _)
      rw [run_bind, c.run_compressInPlace]
      cases c.compress e s <;> rfl
  | blob =>
    show EStateM.run (InPlace.lift e.blobCodec >>= _) s = _
    rw [InPlace.run_lift_bind]
    cases e.blobCodec with
    | error fault => rfl
    | ok codec =>
      show EStateM.run (InPlace.lift (p.toRows e) >>= _) s = _
      rw [InPlace.run_lift_bind]
      cases p.toRows e with
      | error fault => rfl
      | ok raw =>
        show EStateM.run (InPlace.lift (BlobPatch.ofRows codec raw) >>= _) s
          = InPlace.allOrNothing s (BlobPatch.ofRows codec raw >>= _)
        rw [InPlace.run_lift_bind]
        cases BlobPatch.ofRows codec raw <;> rfl

end Patch

end PointPatch
