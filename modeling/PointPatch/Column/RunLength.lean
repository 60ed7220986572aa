/-
PointPatch/Column/RunLength.lean

Run-length coding of fixed-width elements.

A payload is a sequence of pairs, each a count byte and an element.
`runsOf` cuts a list into runs from the left, none longer than a given limit,
and `expandRuns` undoes it.  Elements are compared byte by byte, so numbers
that compare equal but differ in their bits, such as the two zeros, never
share a run.
-/
import PointPatch.Bytes.Chunk
import PointPatch.Fault

namespace PointPatch

/-- A value with the number of times it stands in a row. -/
structure Run (α : Type) where
  /-- How many times. -/
  count : Nat
  /-- What is repeated. -/
  value : α
deriving DecidableEq, Repr

/-! ### Runs of a list -/

/-- The runs of `xs` after `count` copies of `value`. -/
def runsAfter {α : Type} [DecidableEq α] (limit count : Nat) (value : α) : List α → List (Run α)
  | [] => [⟨count, value⟩]
  | x :: xs =>
    if x = value ∧ count < limit then runsAfter limit (count + 1) value xs
    else ⟨count, value⟩ :: runsAfter limit 1 x xs

/-- The runs of a list, each as long as it can be but no longer than `limit`. -/
def runsOf {α : Type} [DecidableEq α] (limit : Nat) : List α → List (Run α)
  | [] => []
  | x :: xs => runsAfter limit 1 x xs

/-- The list that a sequence of runs stands for. -/
def expandRuns {α : Type} (runs : List (Run α)) : List α :=
  runs.flatMap fun r => List.replicate r.count r.value

/-- How often the value changes along `xs`, coming from `value`. -/
def changesAfter {α : Type} [DecidableEq α] (value : α) : List α → Nat
  | [] => 0
  | x :: xs => (if x = value then 0 else 1) + changesAfter x xs

/-- The number of maximal runs of a list. -/
def runCount {α : Type} [DecidableEq α] : List α → Nat
  | [] => 0
  | x :: xs => 1 + changesAfter x xs

theorem expandRuns_runsAfter {α : Type} [DecidableEq α] (limit count : Nat) (value : α)
    (xs : List α) :
    expandRuns (runsAfter limit count value xs) = List.replicate count value ++ xs := by
  induction xs generalizing count value with
  | nil => simp [runsAfter, expandRuns]
  | cons x xs ih =>
    unfold runsAfter
    split
    · rename_i h
      rw [ih, h.1, List.replicate_succ']
      simp
    · have h := ih 1 x
      simp only [expandRuns, List.flatMap_cons] at h ⊢
      rw [h]
      simp

/-- Cutting into runs and expanding them again changes nothing. -/
theorem expandRuns_runsOf {α : Type} [DecidableEq α] (limit : Nat) (xs : List α) :
    expandRuns (runsOf limit xs) = xs := by
  cases xs with
  | nil => rfl
  | cons x xs => exact expandRuns_runsAfter limit 1 x xs

namespace RunLength

/-- The longest run that one pair can hold. -/
def longestRun : Nat := 255

/-- The pair of one run: its count in a byte, then the element. -/
def pairBytes (r : Run (List UInt8)) : List UInt8 :=
  UInt8.ofNat r.count :: r.value

/-- The run of one pair. -/
def ofPair : List UInt8 → Run (List UInt8)
  | [] => ⟨0, []⟩
  | count :: value => ⟨count.toNat, value⟩

/-- The payload of elements of `size` bytes. -/
def encode (size : Nat) (bytes : List UInt8) : List UInt8 :=
  (runsOf longestRun (chunks size bytes)).flatMap pairBytes

/-- The `count` elements that a payload stands for. The counts are checked before any element
is produced. -/
def decode (size count : Nat) (payload : List UInt8) : Except Fault (List UInt8) :=
  if payload.length % (size + 1) ≠ 0 then
    .error (.partialPairs payload.length (size + 1))
  else
    let runs := (chunks (size + 1) payload).map ofPair
    if runs.any fun r => r.count == 0 then .error .emptyRun
    else
      let total := (runs.map Run.count).foldr (· + ·) 0
      if total ≠ count then .error (.runTotal total count)
      else .ok (expandRuns runs).flatten

/-- Turns around the element of every whole pair; counts are single bytes and stay. -/
def flip (size : Nat) (payload : List UInt8) : List UInt8 :=
  ((chunks (size + 1) payload).flatMap fun pair => pair.take 1 ++ (pair.drop 1).reverse)
    ++ payload.drop (payload.length / (size + 1) * (size + 1))

end RunLength

end PointPatch
