/-
PointPatch/Proofs/Sampling/Sequence.lean

Patches that are compressed one after another with one sampling.

The sampling is shared and written in place, and some of the patches may turn
out not to be storable.  Afterwards it is the sampling that has taken in the
patches which were stored as columns while not enough points had been seen
(`sampled`), in their order and each of them once; the other patches have left
no trace, and once enough points have been seen nothing is written any more
(`sampling_of_compressions`).  What is taken in is the columns as they were
decoded, which counts as the patch itself (`Sampling.update_congr`).
-/
import PointPatch.Proofs.Sampling.InPlace
import PointPatch.Proofs.Sampling.Totals
import PointPatch.Proofs.Schema.Names

namespace PointPatch

open Sampling

/-! ### One patch -/

theorem Sampling.InPlace.eq_of_error {α : Type} {x : Except Fault (α × Sampling)} {s s' : Sampling}
    {fault : Fault} (h : InPlace.allOrNothing s x = .error fault s') : s' = s := by
  cases x with
  | ok r => cases h
  | error fault' =>
    cases h
    rfl

/-- Taking in patches one after another counts them and their points. -/
theorem Sampling.counters_of_foldlM {z : ColumnCodec} {s s' : Sampling} {cs : List ColumnPatch}
    (h : cs.foldlM (update z) s = .ok s') :
    s'.patches = s.patches + cs.length ∧ s'.points = s.points + (cs.map fun c => c.count).sum := by
  induction cs generalizing s with
  | nil =>
    cases h
    exact ⟨rfl, rfl⟩
  | cons c cs ih =>
    obtain ⟨t, ht, h⟩ := bind_eq_ok_iff.1 h
    obtain ⟨hpatches, hpoints⟩ := ih h
    obtain ⟨-, ns, -, rfl⟩ := update_eq_ok_iff.1 ht
    have hpatches' : s'.patches = s.patches + 1 + cs.length := hpatches
    have hpoints' : s'.points = s.points + c.count + (cs.map fun c => c.count).sum := hpoints
    refine ⟨?_, ?_⟩
    · rw [hpatches', List.length_cons]
      omega
    · rw [hpoints', List.map_cons, List.sum_cons]
      omega

namespace Patch

variable {e : Engine} {s s' : Sampling} {p q : Patch} {ps : List Patch}

/-- Columns that are stored are taken in while not enough points have been seen: the columns as
they were decoded, which come to the same as the columns of the patch. -/
theorem sample_of_compress {c stored : ColumnPatch} (h : c.compress e s = .ok (stored, s')) :
    ColumnPatch.sample e s c = .ok s' := by
  obtain ⟨raw, hraw, h⟩ := bind_eq_ok_iff.1 h
  obtain ⟨t, hsample, h⟩ := bind_eq_ok_iff.1 h
  obtain ⟨columns, -, h⟩ := bind_eq_ok_iff.1 h
  cases h
  rw [← hsample, ColumnPatch.sample, ColumnPatch.sample,
    update_congr (ColumnPatch.sameValues_of_decode hraw)]

/-- The patches that are sampled, if they can be stored. -/
def IsSampled (e : Engine) (s : Sampling) (p : Patch) : Prop :=
  p.schema.target = .columns ∧ s.points < e.config.sampleThreshold

instance (e : Engine) (s : Sampling) (p : Patch) : Decidable (p.IsSampled e s) :=
  inferInstanceAs (Decidable (_ ∧ _))

/-- What becomes of the sampling when a patch is compressed: nothing if the patch cannot be stored
or is not sampled, and else the patch is taken in. -/
theorem run_compressInPlace_cases (e : Engine) (s : Sampling) (p : Patch) :
    (∃ fault, (p.compressInPlace e).run s = .error fault s)
      ∨ (∃ q, (p.compressInPlace e).run s = .ok q s ∧ ¬ p.IsSampled e s)
      ∨ ∃ q c s', (p.compressInPlace e).run s = .ok q s' ∧ p.IsSampled e s
        ∧ p.toColumns e = .ok c ∧ s.update e.deflate c = .ok s' := by
  rw [run_compressInPlace]
  rcases h : p.compress e s with fault | ⟨q, s'⟩
  · exact .inl ⟨fault, rfl⟩
  have hother : p.schema.target ≠ .columns → ¬ p.IsSampled e s := fun htarget h => htarget h.1
  obtain ⟨hsettled, -, rfl⟩ | ⟨htarget, rfl, -⟩ | ⟨htarget, rfl, -⟩
    | ⟨htarget, c, stored, hc, hstored, -⟩ := cases_of_compress h
  · -- the patch itself
    exact .inr (.inl ⟨q, rfl, hother (target_ne_of_isSettled hsettled)⟩)
  · -- to rows
    exact .inr (.inl ⟨q, rfl, hother (by rw [htarget]; decide)⟩)
  · -- to a blob
    exact .inr (.inl ⟨q, rfl, hother (by rw [htarget]; decide)⟩)
  · -- to columns
    have hsample := sample_of_compress hstored
    rw [ColumnPatch.sample] at hsample
    by_cases hpoints : s.points < e.config.sampleThreshold
    · rw [if_pos hpoints] at hsample
      exact .inr (.inr ⟨q, c, s', rfl, ⟨htarget, hpoints⟩, hc, hsample⟩)
    · rw [if_neg hpoints] at hsample
      cases hsample
      exact .inr (.inl ⟨q, rfl, fun h => hpoints h.2⟩)

/-! ### Many patches -/

/-- The sampling that is there once patches have been compressed one after another, whatever has
become of each. -/
def samplingAfter (e : Engine) (s : Sampling) (ps : List Patch) : Sampling :=
  ps.foldl (fun s p => InPlace.left ((p.compressInPlace e).run s)) s

/-- Those of the patches that are stored as columns while not enough points have been seen. -/
def sampled (e : Engine) : Sampling → List Patch → List Patch
  | _, [] => []
  | s, p :: ps =>
    match (p.compressInPlace e).run s with
    | .ok _ s' => if p.IsSampled e s then p :: sampled e s' ps else sampled e s' ps
    | .error _ s' => sampled e s' ps

theorem samplingAfter_cons (e : Engine) (s : Sampling) (p : Patch) (ps : List Patch) :
    samplingAfter e s (p :: ps)
      = samplingAfter e (InPlace.left ((p.compressInPlace e).run s)) ps := rfl

/-- The sampling has taken in the patches that are sampled, one after another. -/
theorem exists_foldlM_sampled (e : Engine) (s : Sampling) (ps : List Patch) :
    ∃ cs, (sampled e s ps).mapM (toColumns e) = .ok cs
      ∧ cs.foldlM (update e.deflate) s = .ok (samplingAfter e s ps) := by
  induction ps generalizing s with
  | nil => exact ⟨[], rfl, rfl⟩
  | cons p ps ih =>
    rw [samplingAfter_cons, sampled]
    obtain ⟨fault, hrun⟩ | ⟨q, hrun, hp⟩ | ⟨q, c, s', hrun, hp, hc, hupdate⟩ :=
      run_compressInPlace_cases e s p
    · -- the patch cannot be stored
      rw [hrun]
      exact ih s
    · -- the patch is not sampled
      rw [hrun]
      dsimp only
      rw [if_neg hp]
      exact ih s
    · -- the patch is taken in
      rw [hrun]
      dsimp only
      rw [if_pos hp]
      obtain ⟨cs, hcs, hfold⟩ := ih s'
      refine ⟨c :: cs, mapM_eq_ok_iff.2 (.cons hc (mapM_eq_ok_iff.1 hcs)), ?_⟩
      rw [List.foldlM_cons, hupdate, ok_bind]
      exact hfold

/-- Once enough points have been seen, nothing is written any more. -/
theorem samplingAfter_of_le (hs : e.config.sampleThreshold ≤ s.points) (ps : List Patch) :
    samplingAfter e s ps = s := by
  induction ps with
  | nil => rfl
  | cons p ps ih =>
    rw [samplingAfter_cons]
    obtain ⟨fault, hrun⟩ | ⟨q, hrun, -⟩ | ⟨q, c, s', hrun, hp, -, -⟩ :=
      run_compressInPlace_cases e s p
    · rw [hrun]
      exact ih
    · rw [hrun]
      exact ih
    · exact absurd hp.2 (Nat.not_lt.2 hs)

/-- Of patches that are compressed one after another, those are taken in that are stored as columns
while not enough points have been seen, each of them once.  A patch that cannot be stored leaves
the sampling exactly as it was, and so does a patch that cannot be taken in.  Once enough points
have been seen, the sampling stays as it is, whatever follows. -/
theorem sampling_of_compressions (e : Engine) (s : Sampling) (ps : List Patch) :
    (∃ cs, (sampled e s ps).mapM (toColumns e) = .ok cs
        ∧ cs.foldlM (update e.deflate) s = .ok (samplingAfter e s ps)
        ∧ (samplingAfter e s ps).patches = s.patches + (sampled e s ps).length
        ∧ (samplingAfter e s ps).points = s.points + (cs.map fun c => c.count).sum)
      ∧ (∀ p t t' fault, (compressInPlace e p).run t = .error fault t' → t' = t)
      ∧ (∀ c t t' fault, (updateInPlace e.deflate c).run t = .error fault t' → t' = t)
      ∧ (e.config.sampleThreshold ≤ (samplingAfter e s ps).points →
          ∀ later, samplingAfter e s (ps ++ later) = samplingAfter e s ps) := by
  refine ⟨?_, ?_, ?_, ?_⟩
  · obtain ⟨cs, hcs, hfold⟩ := exists_foldlM_sampled e s ps
    obtain ⟨hpatches, hpoints⟩ := counters_of_foldlM hfold
    rw [(mapM_eq_ok_iff.1 hcs).length_eq]
    exact ⟨cs, hcs, hfold, hpatches, hpoints⟩
  · intro p t t' fault h
    rw [run_compressInPlace] at h
    exact InPlace.eq_of_error h
  · intro c t t' fault h
    rw [run_updateInPlace] at h
    exact InPlace.eq_of_error h
  · intro hpoints later
    show (ps ++ later).foldl _ s = _
    rw [List.foldl_append]
    exact samplingAfter_of_le hpoints later

/-- Two points of one byte each, as one column. -/
def byteColumn (c : Column) : Patch := .columns
  { schema :=
      { (Schema.vacant 1).afterSets [{ name := "A", position := 0, type := .uint8 }] with
        target := .columns }
    count := 2
    columns := [c] }

/-- Of a column of runs that breaks off, a blob that there is no codec for, and three columns, the
first two columns are taken in: then the three points that are asked for have been seen. -/
theorem sampling_of_compressions_specimen :
    let e : Engine := { config := { sampleThreshold := 3 }, deflate := Deflate.codec }
    let one := byteColumn ⟨.uint8, 2, .raw, [1, 2]⟩
    let other := byteColumn ⟨.uint8, 2, .rle, [2, 7]⟩
    let broken := byteColumn ⟨.uint8, 2, .rle, [2]⟩
    let boxed : Patch := .blob { one.header with blob := [1, 2] }
    let ps := [broken, one, boxed, other, broken, one]
    let s : Sampling := .start one.schema
    sampled e s ps = [one, other] ∧ (samplingAfter e s ps).patches = 2
      ∧ (samplingAfter e s ps).points = 4
      ∧ samplingAfter e s (ps ++ ps) = samplingAfter e s ps := by
  intro e one other broken boxed ps s
  have hsampled : sampled e s ps = [one, other] := by decide +kernel
  obtain ⟨⟨cs, hcs, -, hpatches, hpoints⟩, -, -, hlater⟩ := sampling_of_compressions e s ps
  rw [hsampled] at hcs hpatches
  cases hcs
  have hfour : (samplingAfter e s ps).points = 4 := hpoints
  exact ⟨hsampled, hpatches, hfour, hlater (by rw [hfour]; decide) ps⟩

end Patch

end PointPatch
