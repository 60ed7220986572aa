/-
PointPatch/Bytes/Chunk.lean

Lists cut into pieces of one size, and pieces written back into a list.

`chunks size xs` is the list of whole pieces at the front of `xs`; a shorter
rest is left out, and pieces of size zero do not exist.  `slice` reads a
stretch of a list, `overwrite` replaces one of the same length.
`reverseChunks` turns around the bytes inside each piece, which is how a
buffer of words changes its byte order.
-/

namespace PointPatch

/-- The first `count` pieces of `size` items each. -/
def chunksOf {α : Type} (size : Nat) : Nat → List α → List (List α)
  | 0, _ => []
  | count + 1, xs => xs.take size :: chunksOf size count (xs.drop size)

/-- The whole pieces of `size` items at the front of `xs`. -/
def chunks {α : Type} (size : Nat) (xs : List α) : List (List α) :=
  chunksOf size (xs.length / size) xs

/-- The `len` items from position `start` on, fewer where the list ends. -/
def slice {α : Type} (start len : Nat) (xs : List α) : List α :=
  (xs.drop start).take len

/-- `xs` with the items from position `start` on replaced by `new`. -/
def overwrite {α : Type} (start : Nat) (new xs : List α) : List α :=
  xs.take start ++ new ++ xs.drop (start + new.length)

/-- Each whole piece of `size` items reversed; a shorter rest stays as it is. -/
def reverseChunks {α : Type} (size : Nat) (xs : List α) : List α :=
  ((chunks size xs).map List.reverse).flatten ++ xs.drop (xs.length / size * size)

/-! ### Shape of the pieces -/

@[simp] theorem length_chunksOf {α : Type} (size count : Nat) (xs : List α) :
    (chunksOf size count xs).length = count := by
  induction count generalizing xs with
  | zero => rfl
  | succ count ih => simp [chunksOf, ih]

@[simp] theorem length_chunks {α : Type} (size : Nat) (xs : List α) :
    (chunks size xs).length = xs.length / size := by
  simp [chunks]

@[simp] theorem chunks_nil {α : Type} (size : Nat) : chunks size ([] : List α) = [] := by
  simp [chunks, chunksOf]

/-- No piece is longer than the asked size. -/
theorem length_le_of_mem_chunksOf {α : Type} {size count : Nat} {xs piece : List α}
    (hp : piece ∈ chunksOf size count xs) : piece.length ≤ size := by
  induction count generalizing xs with
  | zero => cases hp
  | succ count ih =>
    rcases List.mem_cons.1 hp with rfl | hp
    · exact List.length_take_le size xs
    · exact ih hp

theorem length_of_mem_chunksOf {α : Type} {size count : Nat} {xs piece : List α}
    (h : count * size ≤ xs.length) (hp : piece ∈ chunksOf size count xs) :
    piece.length = size := by
  induction count generalizing xs with
  | zero => simp [chunksOf] at hp
  | succ count ih =>
    have hs : size ≤ xs.length := Nat.le_trans (Nat.le_mul_of_pos_left size (by omega)) h
    rcases List.mem_cons.1 hp with rfl | hp
    · simp [hs]
    · refine ih ?_ hp
      rw [Nat.add_mul] at h
      simp only [List.length_drop]
      omega

/-- Every piece has the asked size. -/
theorem length_of_mem_chunks {α : Type} {size : Nat} {xs piece : List α}
    (hp : piece ∈ chunks size xs) : piece.length = size :=
  length_of_mem_chunksOf (Nat.div_mul_le_self _ _) hp

end PointPatch
