/-
PointPatch/Proofs/Column/RunLength.lean

Payloads of runs.

`IsRuns size count runs` says what a reader asks of a sequence of runs: every
value has `size` bytes, every count fits a byte and is not zero, and the
counts make `count` elements.  The payloads that can be decoded are exactly
the pairs of such sequences, and a payload decodes to what its runs stand for
(`decode_eq_ok_iff`).  What the encoder writes is such a payload, so decoding
gives back what was encoded (`decode_encode`).

Turning a payload around turns around the values of its runs and nothing else
(`flip_flatMap_pairBytes`), and doing so twice changes nothing (`flip_flip`).
-/
import PointPatch.Column.RunLength
import PointPatch.Proofs.Bytes.Pieces
import Mathlib.Algebra.GroupWithZero.Nat

namespace PointPatch

/-! ### Runs of a list -/

section

variable {α : Type}

@[simp] theorem expandRuns_nil : expandRuns ([] : List (Run α)) = [] := rfl

@[simp] theorem expandRuns_cons (r : Run α) (runs : List (Run α)) :
    expandRuns (r :: runs) = List.replicate r.count r.value ++ expandRuns runs := by
  simp [expandRuns]

theorem length_expandRuns (runs : List (Run α)) :
    (expandRuns runs).length = (runs.map Run.count).sum := by
  induction runs with
  | nil => rfl
  | cons r runs ih => simp [ih]

theorem mem_expandRuns {runs : List (Run α)} {x : α} (hx : x ∈ expandRuns runs) :
    ∃ r ∈ runs, r.value = x := by
  obtain ⟨r, hr, hx⟩ := List.mem_flatMap.1 hx
  exact ⟨r, hr, (List.eq_of_mem_replicate hx).symm⟩

variable [DecidableEq α]

theorem count_of_mem_runsAfter {limit count : Nat} {value : α} {xs : List α}
    (hcount : 0 < count ∧ count ≤ limit) {r : Run α} (hr : r ∈ runsAfter limit count value xs) :
    0 < r.count ∧ r.count ≤ limit := by
  induction xs generalizing count value with
  | nil =>
    obtain rfl := List.mem_singleton.1 hr
    exact hcount
  | cons x xs ih =>
    rw [runsAfter] at hr
    split at hr
    · -- the run goes on
      rename_i h
      exact ih ⟨Nat.succ_pos _, h.2⟩ hr
    · -- the run ends, and a run of one begins
      rcases List.mem_cons.1 hr with rfl | hr
      · exact hcount
      · exact ih ⟨Nat.one_pos, Nat.le_trans hcount.1 hcount.2⟩ hr

/-- No run is empty, and none is longer than the limit. -/
theorem count_of_mem_runsOf {limit : Nat} (hlimit : 0 < limit) {xs : List α} {r : Run α}
    (hr : r ∈ runsOf limit xs) : 0 < r.count ∧ r.count ≤ limit := by
  cases xs with
  | nil => cases hr
  | cons x xs => exact count_of_mem_runsAfter ⟨Nat.one_pos, hlimit⟩ hr

/-- The value of every run is an item of the list. -/
theorem value_mem_of_mem_runsOf {limit : Nat} (hlimit : 0 < limit) {xs : List α} {r : Run α}
    (hr : r ∈ runsOf limit xs) : r.value ∈ xs := by
  have hpos := (count_of_mem_runsOf hlimit hr).1
  have hmem : r.value ∈ expandRuns (runsOf limit xs) :=
    List.mem_flatMap.2 ⟨r, hr, List.mem_replicate.2 ⟨Nat.ne_of_gt hpos, rfl⟩⟩
  rwa [expandRuns_runsOf] at hmem

end

namespace RunLength

/-! ### Pairs -/

/-- Runs that fit into pairs, and make `count` elements of `size` bytes. -/
structure IsRuns (size count : Nat) (runs : List (Run (List UInt8))) : Prop where
  length_value : ∀ r ∈ runs, r.value.length = size
  count_pos : ∀ r ∈ runs, 0 < r.count
  count_le : ∀ r ∈ runs, r.count ≤ longestRun
  total : (runs.map Run.count).sum = count

theorem ofPair_pairBytes {r : Run (List UInt8)} (h : r.count ≤ longestRun) :
    ofPair (pairBytes r) = r := by
  have hmod : r.count % 256 = r.count := Nat.mod_eq_of_lt (Nat.lt_succ_of_le h)
  simp [pairBytes, ofPair, hmod]

theorem pairBytes_ofPair {size : Nat} {pair : List UInt8} (h : pair.length = size + 1) :
    pairBytes (ofPair pair) = pair := by
  cases pair with
  | nil => cases h
  | cons b value => simp [pairBytes, ofPair]

theorem length_value_ofPair {size : Nat} {pair : List UInt8} (h : pair.length = size + 1) :
    (ofPair pair).value.length = size := by
  cases pair with
  | nil => cases h
  | cons b value => exact Nat.succ.inj h

theorem count_ofPair_le (pair : List UInt8) : (ofPair pair).count ≤ longestRun := by
  cases pair with
  | nil => exact Nat.zero_le _
  | cons b value => exact Nat.le_of_lt_succ b.toNat_lt

theorem length_flatMap_pairBytes {size : Nat} {runs : List (Run (List UInt8))}
    (hvalue : ∀ r ∈ runs, r.value.length = size) :
    (runs.flatMap pairBytes).length = runs.length * (size + 1) :=
  length_flatMap_of_forall fun r hr => congrArg Nat.succ (hvalue r hr)

theorem chunks_pairs {size : Nat} {runs : List (Run (List UInt8))}
    (hvalue : ∀ r ∈ runs, r.value.length = size) :
    chunks (size + 1) (runs.flatMap pairBytes) = runs.map pairBytes :=
  chunks_flatMap (Nat.succ_pos size) fun r hr => congrArg Nat.succ (hvalue r hr)

/-- The whole pairs of a payload that was written from runs are those runs. -/
theorem map_ofPair_chunks {size : Nat} {runs : List (Run (List UInt8))}
    (hvalue : ∀ r ∈ runs, r.value.length = size) (hcount : ∀ r ∈ runs, r.count ≤ longestRun) :
    (chunks (size + 1) (runs.flatMap pairBytes)).map ofPair = runs := by
  have hid : runs.map (ofPair ∘ pairBytes) = runs.map id :=
    List.map_congr_left fun r hr => ofPair_pairBytes (hcount r hr)
  rw [chunks_pairs hvalue, List.map_map, hid, List.map_id]

/-- A payload of whole pairs is written from the runs of its pairs. -/
theorem flatMap_pairBytes_ofPair {size : Nat} {payload : List UInt8}
    (h : payload.length % (size + 1) = 0) :
    ((chunks (size + 1) payload).map ofPair).flatMap pairBytes = payload := by
  have hid : (chunks (size + 1) payload).map (pairBytes ∘ ofPair)
      = (chunks (size + 1) payload).map id :=
    List.map_congr_left fun p hp => pairBytes_ofPair (length_of_mem_chunks hp)
  rw [List.flatMap_def, List.map_map, hid, List.map_id, flatten_chunks h]

/-! ### Decoding -/

theorem decode_flatMap_pairBytes {size count : Nat} {runs : List (Run (List UInt8))}
    (h : IsRuns size count runs) :
    decode size count (runs.flatMap pairBytes) = .ok (expandRuns runs).flatten := by
  have hmod : (runs.flatMap pairBytes).length % (size + 1) = 0 := by
    rw [length_flatMap_pairBytes h.length_value, Nat.mul_mod_left]
  have hany : (runs.any fun r => r.count == 0) = false := by
    rw [List.any_eq_false]
    intro r hr
    simpa using Nat.ne_of_gt (h.count_pos r hr)
  have htotal : (runs.map Run.count).foldr (· + ·) 0 = count := h.total
  rw [decode, if_neg (not_not_intro hmod), map_ofPair_chunks h.length_value h.count_le]
  simp only [hany, htotal, Bool.false_eq_true, if_false, ne_eq, not_true_eq_false]

/-- The pairs of a payload are runs, if none of them is of no elements. -/
theorem isRuns_pairs {size : Nat} {payload : List UInt8}
    (hany : ¬ ((chunks (size + 1) payload).map ofPair).any (fun r => r.count == 0) = true) :
    IsRuns size (((chunks (size + 1) payload).map ofPair).map Run.count).sum
      ((chunks (size + 1) payload).map ofPair) where
  length_value := by
    intro r hr
    obtain ⟨p, hp, rfl⟩ := List.mem_map.1 hr
    exact length_value_ofPair (length_of_mem_chunks hp)
  count_pos := by
    intro r hr
    have hne : r.count ≠ 0 := fun h0 => hany (List.any_eq_true.2 ⟨r, hr, by simp [h0]⟩)
    exact Nat.pos_of_ne_zero hne
  count_le := by
    intro r hr
    obtain ⟨p, -, rfl⟩ := List.mem_map.1 hr
    exact count_ofPair_le p
  total := rfl

/-- The payloads that can be decoded are the pairs of runs that make the right number of
elements, and they decode to what the runs stand for. -/
theorem decode_eq_ok_iff {size count : Nat} {payload out : List UInt8} :
    decode size count payload = .ok out ↔
      ∃ runs, IsRuns size count runs ∧ payload = runs.flatMap pairBytes
        ∧ out = (expandRuns runs).flatten := by
  constructor
  · intro h
    have hmod : payload.length % (size + 1) = 0 := by
      by_contra hne
      rw [decode, if_pos hne] at h
      cases h
    rw [decode, if_neg (not_not_intro hmod)] at h
    simp only at h
    split at h
    · cases h
    · rename_i hany
      split at h
      · cases h
      · rename_i htotal
        cases h
        obtain rfl : _ = count := not_not.1 htotal
        exact ⟨_, isRuns_pairs hany, (flatMap_pairBytes_ofPair hmod).symm, rfl⟩
  · rintro ⟨runs, h, rfl, rfl⟩
    exact decode_flatMap_pairBytes h

theorem length_of_decode {size count : Nat} {payload out : List UInt8}
    (h : decode size count payload = .ok out) : out.length = count * size := by
  obtain ⟨runs, hruns, -, rfl⟩ := decode_eq_ok_iff.1 h
  have hpieces : ∀ x ∈ expandRuns runs, x.length = size := by
    intro x hx
    obtain ⟨r, hr, rfl⟩ := mem_expandRuns hx
    exact hruns.length_value r hr
  rw [length_flatten_of_forall hpieces, length_expandRuns, hruns.total]

/-! ### Encoding -/

theorem isRuns_runsOf (size : Nat) (bytes : List UInt8) :
    IsRuns size (bytes.length / size) (runsOf longestRun (chunks size bytes)) where
  length_value _ hr := length_of_mem_chunks (value_mem_of_mem_runsOf (by decide) hr)
  count_pos _ hr := (count_of_mem_runsOf (by decide) hr).1
  count_le _ hr := (count_of_mem_runsOf (by decide) hr).2
  total := by rw [← length_expandRuns, expandRuns_runsOf, length_chunks]

theorem decode_encode {size count : Nat} {bytes : List UInt8} (hsize : 0 < size)
    (h : bytes.length = count * size) : decode size count (encode size bytes) = .ok bytes := by
  have hcount : bytes.length / size = count := by
    rw [h, Nat.mul_div_cancel _ hsize]
  have hmod : bytes.length % size = 0 := by
    rw [h, Nat.mul_mod_left]
  have hruns := isRuns_runsOf size bytes
  rw [hcount] at hruns
  rw [encode, decode_flatMap_pairBytes hruns, expandRuns_runsOf, flatten_chunks hmod]

/-! ### Byte order -/

/-- A pair with its element turned around. -/
def flipPair (pair : List UInt8) : List UInt8 := pair.take 1 ++ (pair.drop 1).reverse

theorem flip_eq_mapPieces (size : Nat) (payload : List UInt8) :
    flip size payload = mapPieces (size + 1) flipPair payload := rfl

theorem length_flipPair {size : Nat} {pair : List UInt8} (h : pair.length = size + 1) :
    (flipPair pair).length = size + 1 := by
  rw [flipPair, List.length_append, List.length_take, List.length_reverse, List.length_drop, h]
  omega

theorem flipPair_flipPair {size : Nat} {pair : List UInt8} (h : pair.length = size + 1) :
    flipPair (flipPair pair) = pair := by
  cases pair with
  | nil => cases h
  | cons b value => simp [flipPair]

@[simp] theorem length_flip (size : Nat) (payload : List UInt8) :
    (flip size payload).length = payload.length := by
  rw [flip_eq_mapPieces]
  exact length_mapPieces (fun _ => length_flipPair) payload

@[simp] theorem flip_flip (size : Nat) (payload : List UInt8) :
    flip size (flip size payload) = payload := by
  rw [flip_eq_mapPieces, flip_eq_mapPieces]
  exact mapPieces_mapPieces (fun _ => length_flipPair) (fun _ => flipPair_flipPair) payload

/-- A run with its element turned around. -/
def flipRun (r : Run (List UInt8)) : Run (List UInt8) := ⟨r.count, r.value.reverse⟩

/-- Turning a payload around turns around the element of every run. -/
theorem flip_flatMap_pairBytes {size : Nat} {runs : List (Run (List UInt8))}
    (hvalue : ∀ r ∈ runs, r.value.length = size) :
    flip size (runs.flatMap pairBytes) = (runs.map flipRun).flatMap pairBytes := by
  have hwhole : (runs.flatMap pairBytes).length / (size + 1) * (size + 1)
      = (runs.flatMap pairBytes).length := by
    rw [length_flatMap_pairBytes hvalue, Nat.mul_div_cancel _ (Nat.succ_pos size)]
  rw [flip_eq_mapPieces, mapPieces, hwhole, List.drop_length, List.append_nil,
    chunks_pairs hvalue, List.flatMap_map, List.flatMap_map]
  rfl

theorem IsRuns.flip {size count : Nat} {runs : List (Run (List UInt8))}
    (h : IsRuns size count runs) : IsRuns size count (runs.map flipRun) where
  length_value := by
    intro q hq
    obtain ⟨r, hr, rfl⟩ := List.mem_map.1 hq
    rw [flipRun, List.length_reverse, h.length_value r hr]
  count_pos := by
    intro q hq
    obtain ⟨r, hr, rfl⟩ := List.mem_map.1 hq
    exact h.count_pos r hr
  count_le := by
    intro q hq
    obtain ⟨r, hr, rfl⟩ := List.mem_map.1 hq
    exact h.count_le r hr
  total := by
    rw [List.map_map]
    exact h.total

end RunLength

end PointPatch
