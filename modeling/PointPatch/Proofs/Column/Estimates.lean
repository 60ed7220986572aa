/-
PointPatch/Proofs/Column/Estimates.lean

How well the size of a stored column is known before it is stored.

What is counted of a raw column are its maximal runs and its shared bits, and
its sizes in the modes that use them are estimated from these counts.  A run
that is too long for one pair is written as several, but a list of `n` items
has no more than `n / limit` pairs on that account
(`length_runsOf_le`).  The estimate for shared bits is off by the bits that
fill the last byte (`Sigbits.length_encodeWords`).

Both estimates are good enough for the ratios that are asked for: an estimate
below a quarter of the raw size leaves room for the pairs that were not counted
(`lt_of_runs`), also where an element is a single byte and a pair is twice as
long; and one below five eighths leaves room for a byte
(`lt_of_sharedBits`).
-/
import PointPatch.Proofs.Column.SharedBits
import PointPatch.Proofs.Column.Storage

namespace PointPatch

/-! ### Runs -/

section

variable {α : Type} [DecidableEq α] {limit count : Nat} {value : α}

theorem changesAfter_lt_length_runsAfter (limit count : Nat) (value : α) (xs : List α) :
    changesAfter value xs < (runsAfter limit count value xs).length := by
  induction xs generalizing count value with
  | nil => exact Nat.one_pos
  | cons x xs ih =>
    have hbegins : changesAfter x xs < (runsAfter limit 1 x xs).length := ih 1 x
    rw [changesAfter, runsAfter]
    by_cases hx : x = value
    · subst hx
      rw [if_pos rfl, Nat.zero_add]
      split
      · -- the run goes on
        exact ih (count + 1) x
      · -- the run is full
        exact Nat.lt_succ_of_lt hbegins
    · -- the value changes
      rw [if_neg hx, if_neg fun h => hx h.1, List.length_cons]
      omega

/-- A run costs its limit only if it has been filled, or if there is a change. -/
theorem limit_mul_length_runsAfter_lt (hcount : 0 < count ∧ count ≤ limit) (xs : List α) :
    limit * (runsAfter limit count value xs).length
      < limit * changesAfter value xs + limit + count + xs.length := by
  induction xs generalizing count value with
  | nil =>
    rw [runsAfter, changesAfter, List.length_singleton]
    omega
  | cons x xs ih =>
    have hbegins : limit * (runsAfter limit 1 x xs).length
        < limit * changesAfter x xs + limit + 1 + xs.length :=
      ih ⟨Nat.one_pos, Nat.le_trans hcount.1 hcount.2⟩
    rw [changesAfter, runsAfter, List.length_cons]
    by_cases hx : x = value
    · subst hx
      rw [if_pos rfl, Nat.zero_add]
      split
      · -- the run goes on
        rename_i h
        have hgoes : limit * (runsAfter limit (count + 1) x xs).length
            < limit * changesAfter x xs + limit + (count + 1) + xs.length :=
          ih ⟨Nat.succ_pos count, h.2⟩
        omega
      · -- the run is full
        rename_i h
        have hfull : limit ≤ count := Nat.not_lt.1 fun hroom => h ⟨rfl, hroom⟩
        rw [List.length_cons, Nat.mul_succ]
        omega
    · -- the value changes
      rw [if_neg hx, if_neg fun h => hx h.1, List.length_cons, Nat.mul_succ, Nat.mul_add]
      omega

/-- There is a run for each maximal one. -/
theorem runCount_le_length_runsOf (limit : Nat) (xs : List α) :
    runCount xs ≤ (runsOf limit xs).length := by
  cases xs with
  | nil => exact Nat.le_refl 0
  | cons x xs =>
    rw [runCount, runsOf, Nat.add_comm]
    exact changesAfter_lt_length_runsAfter limit 1 x xs

/-- There are no more runs beside the maximal ones than the list has times the limit. -/
theorem length_runsOf_le (hlimit : 0 < limit) (xs : List α) :
    (runsOf limit xs).length ≤ runCount xs + xs.length / limit := by
  cases xs with
  | nil => exact Nat.zero_le _
  | cons x xs =>
    have hcost : limit * (runsAfter limit 1 x xs).length
        < limit * changesAfter x xs + limit + 1 + xs.length :=
      limit_mul_length_runsAfter_lt ⟨Nat.one_pos, hlimit⟩ xs
    rw [runsOf, runCount, ← Nat.sub_le_iff_le_add', Nat.le_div_iff_mul_le hlimit, Nat.mul_comm,
      Nat.mul_sub, Nat.mul_add, List.length_cons]
    omega

end

namespace RunLength

theorem length_encode (size : Nat) (bytes : List UInt8) :
    (encode size bytes).length = (runsOf longestRun (chunks size bytes)).length * (size + 1) :=
  length_flatMap_pairBytes (isRuns_runsOf size bytes).length_value

end RunLength

/-! ### Ratios -/

/-- An estimate of runs below a quarter of the raw size leaves room for the pairs that have not
been counted. -/
theorem lt_of_runs {count size runs length : Nat} (hsize : 0 < size)
    (hlength : length ≤ (runs + count / RunLength.longestRun) * (size + 1))
    (h : 4 * (runs * (size + 1)) < count * size) : length < count * size := by
  have hfull : RunLength.longestRun * (count / RunLength.longestRun * size) ≤ count * size := by
    rw [← Nat.mul_assoc]
    exact Nat.mul_le_mul_right size (Nat.mul_div_le count _)
  -- a pair is at most twice as long as an element
  have hpair : count / RunLength.longestRun * (size + 1)
      ≤ 2 * (count / RunLength.longestRun * size) := by
    rw [Nat.mul_left_comm]
    exact Nat.mul_le_mul_left _ (by omega)
  rw [Nat.add_mul] at hlength
  rw [RunLength.longestRun] at hfull hpair hlength
  omega

/-- An estimate of shared bits below five eighths of the raw size leaves room for the bits that fill
the last byte. -/
theorem lt_of_sharedBits {count size width : Nat} (hsize : 0 < size)
    (h : 8 * (2 * size) + count * width < 5 * (count * size)) :
    2 * size + (count * width + 7) / 8 < count * size := by
  omega

/-! ### Columns -/

namespace Column

variable {z : ColumnCodec} {raw c : Column} {runs bits level : Nat}

/-- How long a raw column is that is stored as runs, from the number of its maximal ones. -/
theorem length_of_encode_rle (hraw : raw.mode = .raw)
    (hlength : raw.payload.length = raw.count * raw.type.size) (hruns : raw.runCount = .ok runs)
    (hc : raw.encode z level .rle = .ok c) :
    runs * (raw.type.size + 1) ≤ c.payload.length
      ∧ c.payload.length ≤ (runs + raw.count / 255) * (raw.type.size + 1) := by
  obtain ⟨type, count, mode, bytes⟩ := raw
  obtain rfl : mode = .raw := hraw
  cases hruns
  cases hc
  have hcount : (chunks type.size bytes).length = count := by
    rw [length_chunks, hlength, Nat.mul_div_cancel _ type.size_pos]
  have hlimit : 0 < RunLength.longestRun := by decide
  have hle := length_runsOf_le hlimit (chunks type.size bytes)
  rw [hcount] at hle
  dsimp only
  rw [RunLength.length_encode]
  exact ⟨Nat.mul_le_mul_right _ (runCount_le_length_runsOf _ _), Nat.mul_le_mul_right _ hle⟩

/-- How long a raw column is that is stored without its shared bits. -/
theorem length_of_encode_sigbits (hraw : raw.mode = .raw)
    (hlength : raw.payload.length = raw.count * raw.type.size)
    (hbits : raw.sharedBitCount = .ok bits) (hc : raw.encode z level .sigbits = .ok c) :
    bits ≤ 8 * raw.type.size ∧ c.payload.length
      = 2 * raw.type.size + (raw.count * (8 * raw.type.size - bits) + 7) / 8 := by
  obtain ⟨type, count, mode, bytes⟩ := raw
  obtain rfl : mode = .raw := hraw
  change Sigbits.commonBitCount type.size bytes = .ok bits at hbits
  change (Sigbits.encode type.size bytes >>= fun payload =>
    Except.ok (⟨type, count, .sigbits, payload⟩ : Column)) = _ at hc
  rw [Sigbits.commonBitCount, if_pos (Sigbits.isSupported_size type)] at hbits
  rw [Sigbits.encode, if_pos (Sigbits.isSupported_size type)] at hc
  cases hbits
  cases hc
  have hcount : (Sigbits.words type.size bytes).length = count := by
    rw [Sigbits.words, List.length_map, length_chunks, hlength, Nat.mul_div_cancel _ type.size_pos]
  refine ⟨commonBits_fst_le _ _, ?_⟩
  dsimp only
  rw [Sigbits.length_encodeWords, hcount]

end Column

end PointPatch
