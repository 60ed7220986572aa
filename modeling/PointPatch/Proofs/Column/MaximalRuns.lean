/-
PointPatch/Proofs/Column/MaximalRuns.lean

Runs that are as long as they can be.

`MaximalRuns limit xs runs` says that a sequence of runs stands for a list,
and that none of its runs could have taken in the first item of the next one:
where two neighbours have the same value, the first is as long as the limit
allows.  `runsOf` cuts a list into such runs (`maximalRuns_runsOf`), and there
is no other way to do so (`MaximalRuns.eq_runsOf`).

A list whose items are renamed one to one has its runs renamed with them
(`runsOf_map`).  This is what lets the runs of a buffer, which are found by
comparing bytes, be read as the runs of the words in it.
-/
import PointPatch.Proofs.Column.RunLength
import Mathlib.Data.List.Chain
import Mathlib.Data.Set.Function

namespace PointPatch

variable {α β : Type} {limit count : Nat} {value : α} {xs : List α} {runs : List (Run α)}

/-- Whether a run leaves nothing to the next one that it could have held itself. -/
def Run.IsFull (limit : Nat) (r next : Run α) : Prop := r.value = next.value → r.count = limit

/-- Runs that stand for a list, each as long as it can be but no longer than a limit. -/
structure MaximalRuns (limit : Nat) (xs : List α) (runs : List (Run α)) : Prop where
  expand : expandRuns runs = xs
  count_pos : ∀ r ∈ runs, 0 < r.count
  count_le : ∀ r ∈ runs, r.count ≤ limit
  full : runs.IsChain (Run.IsFull limit)

/-! ### The runs of a list are maximal -/

section

variable [DecidableEq α]

/-- The first run is one of the value that was seen before. -/
theorem exists_runsAfter_eq_cons (limit count : Nat) (value : α) (xs : List α) :
    ∃ n rest, runsAfter limit count value xs = ⟨n, value⟩ :: rest := by
  induction xs generalizing count value with
  | nil => exact ⟨count, [], rfl⟩
  | cons x xs ih =>
    rw [runsAfter]
    split
    · rename_i h
      exact ih (count + 1) value
    · exact ⟨count, _, rfl⟩

theorem isChain_runsAfter (hcount : count ≤ limit) (hlimit : 0 < limit) :
    (runsAfter limit count value xs).IsChain (Run.IsFull limit) := by
  induction xs generalizing count value with
  | nil => exact List.IsChain.singleton _
  | cons x xs ih =>
    rw [runsAfter]
    split
    · -- the run goes on
      rename_i h
      exact ih h.2
    · -- the run ends, at another value or because it is full
      rename_i h
      obtain ⟨n, rest, hrest⟩ := exists_runsAfter_eq_cons limit 1 x xs
      have hnext : (runsAfter limit 1 x xs).IsChain (Run.IsFull limit) := ih hlimit
      rw [hrest] at hnext ⊢
      refine List.isChain_cons_cons.2 ⟨?_, hnext⟩
      intro hvalue
      by_contra hne
      exact h ⟨hvalue.symm, Nat.lt_of_le_of_ne hcount hne⟩

/-- A list is cut into runs that are as long as they can be. -/
theorem maximalRuns_runsOf (hlimit : 0 < limit) (xs : List α) :
    MaximalRuns limit xs (runsOf limit xs) where
  expand := expandRuns_runsOf limit xs
  count_pos _ hr := (count_of_mem_runsOf hlimit hr).1
  count_le _ hr := (count_of_mem_runsOf hlimit hr).2
  full := by
    cases xs with
    | nil => exact List.IsChain.nil
    | cons x xs => exact isChain_runsAfter hlimit hlimit

/-! ### There are no others -/

/-- More copies of the value make the run longer, as far as the limit allows. -/
theorem runsAfter_replicate_append {n : Nat} (h : count + n ≤ limit) :
    runsAfter limit count value (List.replicate n value ++ xs)
      = runsAfter limit (count + n) value xs := by
  induction n generalizing count with
  | zero => rfl
  | succ n ih =>
    have hroom : count < limit := by omega
    rw [List.replicate_succ, List.cons_append, runsAfter, if_pos ⟨rfl, hroom⟩,
      ih (by omega), Nat.add_right_comm, Nat.add_assoc]

theorem runsOf_replicate_append {n : Nat} (hpos : 0 < n) (hle : n ≤ limit) :
    runsOf limit (List.replicate n value ++ xs) = runsAfter limit n value xs := by
  obtain ⟨m, rfl⟩ : ∃ m, n = m + 1 := ⟨n - 1, (Nat.sub_add_cancel hpos).symm⟩
  rw [Nat.add_comm] at hle
  rw [List.replicate_succ, List.cons_append, runsOf, runsAfter_replicate_append hle, Nat.add_comm]

/-- A run in front of maximal runs stays one of them, if it is full. -/
theorem runsAfter_expandRuns (hfull : (⟨count, value⟩ :: runs).IsChain (Run.IsFull limit))
    (hpos : ∀ r ∈ runs, 0 < r.count) (hle : ∀ r ∈ runs, r.count ≤ limit) :
    runsAfter limit count value (expandRuns runs) = ⟨count, value⟩ :: runs := by
  induction runs generalizing count value with
  | nil => rfl
  | cons r runs ih =>
    obtain ⟨n, v⟩ := r
    obtain ⟨hhead, hrest⟩ := List.isChain_cons_cons.1 hfull
    obtain ⟨hn, hpos⟩ := List.forall_mem_cons.1 hpos
    obtain ⟨hlimit, hle⟩ := List.forall_mem_cons.1 hle
    have hends : ¬ (v = value ∧ count < limit) := by
      rintro ⟨rfl, hlt⟩
      exact absurd (hhead rfl) (Nat.ne_of_lt hlt)
    -- a new run begins, and takes in all copies of its value
    have hbegins : runsAfter limit count value (expandRuns (⟨n, v⟩ :: runs))
        = ⟨count, value⟩ :: runsOf limit (expandRuns (⟨n, v⟩ :: runs)) := by
      obtain ⟨m, rfl⟩ : ∃ m, n = m + 1 := ⟨n - 1, (Nat.sub_add_cancel hn).symm⟩
      rw [expandRuns_cons, List.replicate_succ, List.cons_append, runsAfter, if_neg hends, runsOf]
    rw [hbegins, expandRuns_cons, runsOf_replicate_append hn hlimit, ih hrest hpos hle]

/-- The runs of a list are the only ones that are as long as they can be. -/
theorem MaximalRuns.eq_runsOf (h : MaximalRuns limit xs runs) : runs = runsOf limit xs := by
  obtain ⟨rfl, hpos, hle, hfull⟩ := h
  cases runs with
  | nil => rfl
  | cons r runs =>
    obtain ⟨hn, hpos⟩ := List.forall_mem_cons.1 hpos
    obtain ⟨hlimit, hle⟩ := List.forall_mem_cons.1 hle
    rw [expandRuns_cons, runsOf_replicate_append hn hlimit, runsAfter_expandRuns hfull hpos hle]

theorem MaximalRuns.unique {runs' : List (Run α)} (h : MaximalRuns limit xs runs)
    (h' : MaximalRuns limit xs runs') : runs = runs' :=
  h.eq_runsOf.trans h'.eq_runsOf.symm

end

/-! ### Renaming -/

/-- A run of renamed items. -/
def Run.map (f : α → β) (r : Run α) : Run β := ⟨r.count, f r.value⟩

theorem expandRuns_map (f : α → β) (runs : List (Run α)) :
    expandRuns (runs.map (Run.map f)) = (expandRuns runs).map f := by
  induction runs with
  | nil => rfl
  | cons r runs ih =>
    rw [List.map_cons, expandRuns_cons, expandRuns_cons, ih, List.map_append, List.map_replicate]
    rfl

/-- Maximal runs stay maximal where different items get different names. -/
theorem MaximalRuns.map {f : α → β} (hf : Set.InjOn f {x | x ∈ xs})
    (h : MaximalRuns limit xs runs) : MaximalRuns limit (xs.map f) (runs.map (Run.map f)) where
  expand := by rw [expandRuns_map, h.expand]
  count_pos := by
    intro q hq
    obtain ⟨r, hr, rfl⟩ := List.mem_map.1 hq
    exact h.count_pos r hr
  count_le := by
    intro q hq
    obtain ⟨r, hr, rfl⟩ := List.mem_map.1 hq
    exact h.count_le r hr
  full := by
    have hmem : ∀ r ∈ runs, r.value ∈ xs := by
      intro r hr
      rw [← h.expand]
      exact List.mem_flatMap.2 ⟨r, hr, List.mem_replicate.2 ⟨Nat.ne_of_gt (h.count_pos r hr), rfl⟩⟩
    rw [List.isChain_map]
    refine h.full.imp_of_mem_imp ?_
    intro r next hr hnext hfull hvalue
    exact hfull (hf (hmem r hr) (hmem next hnext) hvalue)

/-- Renaming the items of a list one to one renames its runs. -/
theorem runsOf_map [DecidableEq α] [DecidableEq β] {f : α → β} (hlimit : 0 < limit)
    (hf : Set.InjOn f {x | x ∈ xs}) :
    runsOf limit (xs.map f) = (runsOf limit xs).map (Run.map f) :=
  ((maximalRuns_runsOf hlimit xs).map hf).eq_runsOf.symm

end PointPatch
