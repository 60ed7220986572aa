/-
PointPatch/Proofs/Column/ShortestRuns.lean

Payloads that are as short as they can be.

A run that is longer to begin with saves at most one run, and costs none
(`length_runsAfter_le`).  So a list that is cut into runs from the left, each
as long as it can be, is cut into no more runs than by any other way of
cutting it (`length_runsOf_expandRuns_le`).

A payload is read as the pairs it consists of.  `IsPayload` says what is asked
of them, and is all that is asked (`decode_eq_ok_iff_isPayload`).  The reader
writes into an output buffer: it goes over the pairs once to check them, and a
second time to write what they stand for (`decodeInto`).  It leaves there what
the payload decodes to, or nothing at all (`run_decodeInto`).

A shortest sequence of runs makes a shortest payload: no payload that decodes
to the same elements has fewer bytes than the one that is written
(`isPayload_and_shortest_encode`).
-/
import PointPatch.Proofs.Column.MaximalRuns
import PointPatch.Proofs.Outcome

namespace PointPatch

/-! ### The fewest runs -/

section

variable {α : Type} [DecidableEq α] {limit : Nat} {value : α}

/-- A longer run in front saves one run at most, and costs none. -/
theorem length_runsAfter_le {j k : Nat} (hjk : j ≤ k) (hk : k ≤ limit) (xs : List α) :
    (runsAfter limit j value xs).length ≤ (runsAfter limit k value xs).length
      ∧ (runsAfter limit k value xs).length ≤ (runsAfter limit j value xs).length + 1 := by
  induction xs generalizing j k value with
  | nil => exact ⟨Nat.le_refl 1, Nat.le_succ 1⟩
  | cons x xs ih =>
    rcases Nat.eq_or_lt_of_le hjk with rfl | hlt
    · exact ⟨Nat.le_refl _, Nat.le_succ _⟩
    by_cases hx : x = value
    · subst hx
      have hgoes : runsAfter limit j x (x :: xs) = runsAfter limit (j + 1) x xs := by
        rw [runsAfter, if_pos ⟨rfl, Nat.lt_of_lt_of_le hlt hk⟩]
      rw [hgoes]
      rcases Nat.eq_or_lt_of_le hk with rfl | hroom
      · -- the longer run is full, and the shorter one is ahead of the run that follows it
        have hends : runsAfter k k x (x :: xs) = ⟨k, x⟩ :: runsAfter k 1 x xs := by
          rw [runsAfter, if_neg fun h => Nat.lt_irrefl k h.2]
        obtain ⟨hle, hge⟩ : (runsAfter k 1 x xs).length ≤ (runsAfter k (j + 1) x xs).length
            ∧ (runsAfter k (j + 1) x xs).length ≤ (runsAfter k 1 x xs).length + 1 :=
          ih (Nat.succ_le_succ (Nat.zero_le j)) hlt
        rw [hends, List.length_cons]
        exact ⟨hge, Nat.succ_le_succ hle⟩
      · -- both runs go on
        have hgoes' : runsAfter limit k x (x :: xs) = runsAfter limit (k + 1) x xs := by
          rw [runsAfter, if_pos ⟨rfl, hroom⟩]
        rw [hgoes']
        exact ih (Nat.succ_le_succ hjk) hroom
    · -- both runs end, and the same run begins
      have hends : ∀ n, runsAfter limit n value (x :: xs) = ⟨n, value⟩ :: runsAfter limit 1 x xs :=
        fun n => by rw [runsAfter, if_neg fun h => hx h.1]
      rw [hends, hends]
      exact ⟨Nat.le_refl _, Nat.le_succ _⟩

/-- Copies of a value in front of a list need one more run at most. -/
theorem length_runsOf_replicate_append_le {n : Nat} (hn : n ≤ limit) (value : α) (xs : List α) :
    (runsOf limit (List.replicate n value ++ xs)).length ≤ (runsOf limit xs).length + 1 := by
  rcases Nat.eq_zero_or_pos n with rfl | hpos
  · exact Nat.le_succ _
  rw [runsOf_replicate_append hpos hn]
  cases xs with
  | nil => exact Nat.le_refl 1
  | cons x xs =>
    rw [runsOf, runsAfter]
    split
    · -- the list goes on with the same value
      rename_i h
      obtain ⟨rfl, hroom⟩ := h
      exact (length_runsAfter_le (Nat.succ_le_succ (Nat.zero_le n)) hroom xs).2
    · exact Nat.le_refl _

/-- No way of cutting a list into runs needs fewer of them than cutting it from the left. -/
theorem length_runsOf_expandRuns_le {runs : List (Run α)} (hle : ∀ r ∈ runs, r.count ≤ limit) :
    (runsOf limit (expandRuns runs)).length ≤ runs.length := by
  induction runs with
  | nil => exact Nat.le_refl 0
  | cons r runs ih =>
    obtain ⟨hr, hle⟩ := List.forall_mem_cons.1 hle
    rw [expandRuns_cons]
    exact Nat.le_trans (length_runsOf_replicate_append_le hr r.value _) (Nat.succ_le_succ (ih hle))

end

namespace RunLength

variable {size count : Nat} {payload bytes : List UInt8}

/-! ### The pairs of a payload -/

/-- The runs of the whole pairs of a payload. -/
def pairs (size : Nat) (payload : List UInt8) : List (Run (List UInt8)) :=
  (chunks (size + 1) payload).map ofPair

/-- What is asked of a payload: whole pairs, none of them of no elements, that make `count`
elements. -/
structure IsPayload (size count : Nat) (payload : List UInt8) : Prop where
  whole : payload.length % (size + 1) = 0
  count_ne_zero : ∀ r ∈ pairs size payload, r.count ≠ 0
  total : ((pairs size payload).map Run.count).sum = count

theorem length_pairs (size : Nat) (payload : List UInt8) :
    (pairs size payload).length = payload.length / (size + 1) := by
  rw [pairs, List.length_map, length_chunks]

theorem count_le_of_mem_pairs {r : Run (List UInt8)} (hr : r ∈ pairs size payload) :
    r.count ≤ longestRun := by
  obtain ⟨p, -, rfl⟩ := List.mem_map.1 hr
  exact count_ofPair_le p

theorem length_of_mem_expandRuns_pairs {x : List UInt8} (hx : x ∈ expandRuns (pairs size payload)) :
    x.length = size := by
  obtain ⟨r, hr, rfl⟩ := mem_expandRuns hx
  obtain ⟨p, hp, rfl⟩ := List.mem_map.1 hr
  exact length_value_ofPair (length_of_mem_chunks hp)

theorem IsRuns.isPayload {runs : List (Run (List UInt8))} (h : IsRuns size count runs) :
    IsPayload size count (runs.flatMap pairBytes) where
  whole := by rw [length_flatMap_pairBytes h.length_value, Nat.mul_mod_left]
  count_ne_zero := by
    rw [pairs, map_ofPair_chunks h.length_value h.count_le]
    exact fun r hr => Nat.ne_of_gt (h.count_pos r hr)
  total := by rw [pairs, map_ofPair_chunks h.length_value h.count_le, h.total]

/-- A payload decodes if it is as asked, and to the value of each pair as often as its count says,
in the order of the pairs. -/
theorem decode_eq_ok_iff_isPayload {out : List UInt8} :
    decode size count payload = .ok out ↔
      IsPayload size count payload ∧ out = (expandRuns (pairs size payload)).flatten := by
  rw [decode_eq_ok_iff]
  constructor
  · rintro ⟨runs, hruns, rfl, rfl⟩
    rw [pairs, map_ofPair_chunks hruns.length_value hruns.count_le]
    exact ⟨hruns.isPayload, rfl⟩
  · rintro ⟨h, rfl⟩
    have hany : ¬ (pairs size payload).any (fun r => r.count == 0) = true := by
      rw [List.any_eq_true]
      rintro ⟨r, hr, hzero⟩
      exact h.count_ne_zero r hr (beq_iff_eq.1 hzero)
    have hruns := isRuns_pairs hany
    rw [← pairs, h.total] at hruns
    exact ⟨pairs size payload, hruns, (flatMap_pairBytes_ofPair h.whole).symm, rfl⟩

/-! ### The output buffer -/

/-- Operations that write into an output buffer, and may fail with parts of it written. -/
abbrev Filling := EStateM Fault (List UInt8)

/-- Adds a pair to the number of elements that have been announced. -/
def announce (total : Nat) (r : Run (List UInt8)) : Filling Nat :=
  if r.count = 0 then throw .emptyRun else pure (total + r.count)

/-- Writes the value of a pair as often as its count says. -/
def writeRun (r : Run (List UInt8)) : Filling Unit :=
  (List.replicate r.count r.value).forM fun value => modify fun output => output ++ value

/-- Decodes a payload into an output buffer.  What was there before goes away first; the pairs are
gone over once to check their counts, and again to write their values. -/
def decodeInto (size count : Nat) (payload : List UInt8) : Filling Unit := do
  set ([] : List UInt8)
  if payload.length % (size + 1) ≠ 0 then
    throw (.partialPairs payload.length (size + 1))
  let total ← (pairs size payload).foldlM announce 0
  if total ≠ count then
    throw (.runTotal total count)
  (pairs size payload).forM writeRun

theorem run_foldlM_announce (runs : List (Run (List UInt8))) (total : Nat) (output : List UInt8) :
    (runs.foldlM announce total).run output
      = if runs.any fun r => r.count == 0 then .error .emptyRun output
        else .ok (total + (runs.map Run.count).sum) output := by
  induction runs generalizing total with
  | nil => rfl
  | cons r runs ih =>
    rw [List.foldlM_cons, run_bind, announce, List.any_cons]
    by_cases hzero : r.count = 0
    · rw [if_pos hzero, hzero]
      rfl
    · have hbeq : (r.count == 0) = false := beq_eq_false_iff_ne.2 hzero
      rw [if_neg hzero, hbeq, Bool.false_or, List.map_cons, List.sum_cons, ← Nat.add_assoc]
      exact ih (total + r.count)

theorem run_writeRun (output : List UInt8) (r : Run (List UInt8)) :
    (writeRun r).run output = .ok () (output ++ (List.replicate r.count r.value).flatten) := by
  have hfold : (List.replicate r.count r.value).foldl (fun output value => output ++ value) output
      = output ++ (List.replicate r.count r.value).flatten := by
    rw [List.foldl_append_eq_append, List.map_id']
  rw [← hfold]
  exact run_forM (fun _ _ => rfl) _ output

theorem run_forM_writeRun (runs : List (Run (List UInt8))) (output : List UInt8) :
    (runs.forM writeRun).run output = .ok () (output ++ (expandRuns runs).flatten) := by
  rw [run_forM run_writeRun, List.foldl_append_eq_append, expandRuns, List.flatMap_def,
    List.flatten_flatten, List.map_map]
  rfl

/-- What the payload decodes to is in the output buffer, or nothing is. -/
theorem run_decodeInto (size count : Nat) (payload output : List UInt8) :
    (decodeInto size count payload).run output = match decode size count payload with
      | .ok out => .ok () out
      | .error fault => .error fault [] := by
  rw [decode, decodeInto, ← pairs]
  show EStateM.run (if _ then _ else _) [] = _
  by_cases hwhole : payload.length % (size + 1) ≠ 0
  · rw [if_pos hwhole, if_pos hwhole]
    rfl
  have htotal : ((pairs size payload).map Run.count).foldr (· + ·) 0
      = 0 + ((pairs size payload).map Run.count).sum := (Nat.zero_add _).symm
  rw [if_neg hwhole, if_neg hwhole, run_bind, run_foldlM_announce]
  dsimp only
  rw [htotal]
  by_cases hany : (pairs size payload).any (fun r => r.count == 0) = true
  · rw [if_pos hany, if_pos hany]
  rw [if_neg hany, if_neg hany]
  dsimp only
  by_cases hcount : 0 + ((pairs size payload).map Run.count).sum ≠ count
  · rw [if_pos hcount, if_pos hcount]
    rfl
  · rw [if_neg hcount, if_neg hcount]
    exact run_forM_writeRun _ []

/-! ### The shortest payload -/

theorem pairs_encode (size : Nat) (bytes : List UInt8) :
    pairs size (encode size bytes) = runsOf longestRun (chunks size bytes) := by
  have hruns := isRuns_runsOf size bytes
  rw [pairs, encode, map_ofPair_chunks hruns.length_value hruns.count_le]

/-- A payload that decodes to a list of elements has as many pairs as the one that is written for
them, or more. -/
theorem length_encode_le (hsize : 0 < size) (h : decode size count payload = .ok bytes) :
    (encode size bytes).length ≤ payload.length := by
  obtain ⟨hpayload, rfl⟩ := decode_eq_ok_iff_isPayload.1 h
  have hchunks : chunks size (expandRuns (pairs size payload)).flatten
      = expandRuns (pairs size payload) :=
    chunks_flatten hsize fun _ hx => length_of_mem_expandRuns_pairs hx
  have hruns := isRuns_runsOf size (expandRuns (pairs size payload)).flatten
  have hfewest : (runsOf longestRun (expandRuns (pairs size payload))).length
      ≤ (pairs size payload).length :=
    length_runsOf_expandRuns_le fun _ hr => count_le_of_mem_pairs hr
  rw [length_pairs] at hfewest
  calc (encode size (expandRuns (pairs size payload)).flatten).length
      = (runsOf longestRun (expandRuns (pairs size payload))).length * (size + 1) := by
        rw [encode, length_flatMap_pairBytes hruns.length_value, hchunks]
    _ ≤ payload.length / (size + 1) * (size + 1) := Nat.mul_le_mul_right _ hfewest
    _ = payload.length := Nat.div_mul_cancel (Nat.dvd_of_mod_eq_zero hpayload.whole)

/-- What the reader of runs accepts and leaves in its buffer, for all payloads; and for all
elements, that the payload which is written for them is accepted and reads back, that a pair goes
on with the value of the one before only if that one is full, and that no payload for these
elements is shorter. -/
theorem isPayload_and_shortest_encode (hsize : 0 < size) :
    (∀ count payload output,
      (IsPayload size count payload →
        decode size count payload = .ok (expandRuns (pairs size payload)).flatten
        ∧ (decodeInto size count payload).run output
            = .ok () (expandRuns (pairs size payload)).flatten)
      ∧ (¬ IsPayload size count payload → ∃ fault,
        decode size count payload = .error fault
        ∧ (decodeInto size count payload).run output = .error fault []))
    ∧ ∀ bytes : List UInt8, bytes.length % size = 0 →
      decode size (bytes.length / size) (encode size bytes) = .ok bytes
      ∧ (pairs size (encode size bytes)).IsChain (Run.IsFull 255)
      ∧ ∀ count payload, decode size count payload = .ok bytes →
          (encode size bytes).length ≤ payload.length := by
  refine ⟨fun count payload output => ⟨?_, ?_⟩, fun bytes hwhole => ⟨?_, ?_, ?_⟩⟩
  · intro h
    have hdecode := decode_eq_ok_iff_isPayload.2 ⟨h, rfl⟩
    refine ⟨hdecode, ?_⟩
    rw [run_decodeInto, hdecode]
  · intro h
    rcases hdecode : decode size count payload with fault | out
    · refine ⟨fault, rfl, ?_⟩
      rw [run_decodeInto, hdecode]
    · exact absurd (decode_eq_ok_iff_isPayload.1 hdecode).1 h
  · exact decode_encode hsize (Nat.div_mul_cancel (Nat.dvd_of_mod_eq_zero hwhole)).symm
  · rw [pairs_encode]
    exact (maximalRuns_runsOf (by decide) _).full
  · exact fun _ _ => length_encode_le hsize

/-- An element of two bytes and two copies of another. -/
theorem isPayload_and_shortest_encode_three :
    0 < 2
    ∧ (decodeInto 2 3 [1, 7, 8, 2, 9, 9]).run [5] = .ok () [7, 8, 9, 9, 9, 9]
    ∧ (∃ fault, (decodeInto 2 3 [1, 7, 8, 0, 9, 9]).run [5] = .error fault [])
    ∧ encode 2 [7, 8, 9, 9, 9, 9] = [1, 7, 8, 2, 9, 9]
    ∧ ∀ count payload, decode 2 count payload = .ok [7, 8, 9, 9, 9, 9] → 6 ≤ payload.length := by
  have hsize : 0 < 2 := by decide
  obtain ⟨hread, hwrite⟩ := isPayload_and_shortest_encode hsize
  have haccepted : IsPayload 2 3 [1, 7, 8, 2, 9, 9] := ⟨by decide, by decide, by decide⟩
  have hrefused : ¬ IsPayload 2 3 [1, 7, 8, 0, 9, 9] := fun h =>
    h.count_ne_zero ⟨0, [9, 9]⟩ (by decide) rfl
  obtain ⟨fault, -, hfault⟩ := (hread 3 [1, 7, 8, 0, 9, 9] [5]).2 hrefused
  refine ⟨hsize, ?_, ⟨fault, hfault⟩, by decide, ?_⟩
  · exact ((hread 3 [1, 7, 8, 2, 9, 9] [5]).1 haccepted).2
  · exact (hwrite [7, 8, 9, 9, 9, 9] (by decide)).2.2

end RunLength

end PointPatch
