/-
PointPatch/Proofs/Bytes/Pieces.lean

Cutting lists into pieces of one size, and putting them together again.

Pieces of the right size come back out of what they are joined to
(`chunks_flatten`), and the pieces of a list together with what is left over
make up the list (`flatten_chunks_append`).

Three operations of the library change the byte order of a buffer: of its
words, of the values in its runs, of the fields of its rows.  All three work
on every whole piece of the buffer by itself and leave the rest alone.
`mapPieces` is what they have in common; where the change of a piece undoes
itself, so does the change of the buffer (`mapPieces_mapPieces`).
-/
import PointPatch.Bytes.Chunk
import Mathlib.Algebra.BigOperators.Group.List.Basic

namespace PointPatch

variable {α β : Type}

/-! ### Joining and cutting -/

theorem length_flatten_of_forall {pieces : List (List α)} {size : Nat}
    (h : ∀ p ∈ pieces, p.length = size) : pieces.flatten.length = pieces.length * size := by
  induction pieces with
  | nil => simp
  | cons p pieces ih =>
    have hp := h p List.mem_cons_self
    have hps := ih fun q hq => h q (List.mem_cons_of_mem p hq)
    simp only [List.flatten_cons, List.length_append, List.length_cons, hp, hps, Nat.succ_mul]
    omega

/-- Pieces of one size come back out of what they are joined to. -/
theorem chunksOf_flatten_append {pieces : List (List α)} {size : Nat}
    (h : ∀ p ∈ pieces, p.length = size) (rest : List α) :
    chunksOf size pieces.length (pieces.flatten ++ rest) = pieces := by
  induction pieces with
  | nil => rfl
  | cons p pieces ih =>
    have hp := h p List.mem_cons_self
    have hps := ih fun q hq => h q (List.mem_cons_of_mem p hq)
    simp only [List.length_cons, chunksOf, List.flatten_cons, List.append_assoc,
      List.take_left' hp, List.drop_left' hp, hps]

theorem chunks_flatten_append {pieces : List (List α)} {size : Nat} (hsize : 0 < size)
    (h : ∀ p ∈ pieces, p.length = size) (rest : List α) (hrest : rest.length < size) :
    chunks size (pieces.flatten ++ rest) = pieces := by
  have hcount : (pieces.flatten ++ rest).length / size = pieces.length := by
    rw [List.length_append, length_flatten_of_forall h, Nat.add_comm,
      Nat.add_mul_div_right _ _ hsize, Nat.div_eq_of_lt hrest, Nat.zero_add]
  rw [chunks, hcount, chunksOf_flatten_append h]

theorem chunks_flatten {pieces : List (List α)} {size : Nat} (hsize : 0 < size)
    (h : ∀ p ∈ pieces, p.length = size) : chunks size pieces.flatten = pieces := by
  simpa using chunks_flatten_append hsize h [] hsize

theorem length_flatMap_of_forall {f : β → List α} {xs : List β} {size : Nat}
    (h : ∀ x ∈ xs, (f x).length = size) : (xs.flatMap f).length = xs.length * size := by
  rw [List.flatMap_def, length_flatten_of_forall (List.forall_mem_map.2 h), List.length_map]

theorem chunks_flatMap {f : β → List α} {xs : List β} {size : Nat} (hsize : 0 < size)
    (h : ∀ x ∈ xs, (f x).length = size) : chunks size (xs.flatMap f) = xs.map f := by
  rw [List.flatMap_def, chunks_flatten hsize (List.forall_mem_map.2 h)]

theorem flatten_chunksOf {size count : Nat} {xs : List α} (h : count * size ≤ xs.length) :
    (chunksOf size count xs).flatten = xs.take (count * size) := by
  induction count generalizing xs with
  | zero => simp [chunksOf]
  | succ count ih =>
    rw [Nat.succ_mul] at h
    have hrest : count * size ≤ (xs.drop size).length := by
      rw [List.length_drop]
      omega
    rw [chunksOf, List.flatten_cons, ih hrest, Nat.succ_mul, Nat.add_comm, List.take_add]

/-- The pieces of a list and what is left over make up the list. -/
theorem flatten_chunks_append (size : Nat) (xs : List α) :
    (chunks size xs).flatten ++ xs.drop (xs.length / size * size) = xs := by
  rw [chunks, flatten_chunksOf (Nat.div_mul_le_self _ _), List.take_append_drop]

theorem flatten_chunks {size : Nat} {xs : List α} (h : xs.length % size = 0) :
    (chunks size xs).flatten = xs := by
  have hlen : xs.length / size * size = xs.length :=
    Nat.div_mul_cancel (Nat.dvd_of_mod_eq_zero h)
  simpa [hlen] using flatten_chunks_append size xs

/-- The pieces of whole pieces with something behind them. -/
theorem chunks_append {size : Nat} {xs : List α} (hsize : 0 < size) (hxs : size ∣ xs.length)
    (ys : List α) : chunks size (xs ++ ys) = chunks size xs ++ chunks size ys := by
  have hpieces : ∀ p ∈ chunks size xs ++ chunks size ys, p.length = size := by
    intro p hp
    rcases List.mem_append.1 hp with hp | hp
    · exact length_of_mem_chunks hp
    · exact length_of_mem_chunks hp
  have hmod := Nat.mod_lt ys.length hsize
  have hdiv := Nat.div_add_mod' ys.length size
  have hflat : xs ++ ys = (chunks size xs ++ chunks size ys).flatten
      ++ ys.drop (ys.length / size * size) := by
    rw [List.flatten_append, List.append_assoc, flatten_chunks (Nat.mod_eq_zero_of_dvd hxs),
      flatten_chunks_append]
  rw [hflat]
  apply chunks_flatten_append hsize hpieces
  rw [List.length_drop]
  omega

theorem chunks_append_piece {size count : Nat} {xs piece : List α} (hsize : 0 < size)
    (hxs : xs.length = size * count) (hpiece : piece.length = size) :
    chunks size (xs ++ piece) = chunks size xs ++ [piece] := by
  have hpieces : ∀ p ∈ [piece], p.length = size := by simpa using hpiece
  have hone : chunks size piece = [piece] := by
    simpa using chunks_flatten hsize hpieces
  rw [chunks_append hsize ⟨count, hxs⟩, hone]

/-! ### Stretches of a list -/

theorem slice_append_append {a b : List α} {start len : Nat} (ha : a.length = start)
    (hb : b.length = len) (c : List α) : slice start len (a ++ b ++ c) = b := by
  rw [slice, List.append_assoc, List.drop_left' ha, List.take_left' hb]

/-- A stretch of a middle part. -/
theorem slice_append_middle {a b : List α} {before start len : Nat} (ha : a.length = before)
    (hb : start + len ≤ b.length) (c : List α) :
    slice (before + start) len (a ++ b ++ c) = slice start len b := by
  have hlen : len ≤ (b.drop start).length := by
    rw [List.length_drop]
    omega
  rw [slice, List.append_assoc, ← List.drop_drop, List.drop_left' ha,
    List.drop_append_of_le_length (by omega), List.take_append_of_le_length hlen, slice]

theorem overwrite_append_append {a b new : List α} {start : Nat} (ha : a.length = start)
    (hb : b.length = new.length) (c : List α) :
    overwrite start new (a ++ b ++ c) = a ++ new ++ c := by
  have hab : (a ++ b).length = start + new.length := by
    rw [List.length_append, ha, hb]
  rw [overwrite, List.drop_left' hab, List.append_assoc a b c, List.take_left' ha]

theorem length_overwrite {start : Nat} {new xs : List α} (h : start + new.length ≤ xs.length) :
    (overwrite start new xs).length = xs.length := by
  rw [overwrite, List.length_append, List.length_append, List.length_take, List.length_drop]
  omega

/-- What is written over a stretch of a list is seen there and nowhere else. -/
theorem getElem?_overwrite_of_not_mem {start : Nat} {new xs : List α}
    (h : start + new.length ≤ xs.length) {i : Nat} (hi : i ∉ List.range' start new.length) :
    (overwrite start new xs)[i]? = xs[i]? := by
  rw [List.mem_range'_1, not_and, Nat.not_lt] at hi
  have htake : (xs.take start).length = start := by
    rw [List.length_take]
    omega
  rw [overwrite, List.append_assoc]
  rcases Nat.lt_or_ge i start with hlt | hge
  · rw [List.getElem?_append_left (by omega), List.getElem?_take_of_lt hlt]
  · have hend := hi hge
    rw [List.getElem?_append_right (by omega), htake, List.getElem?_append_right (by omega),
      List.getElem?_drop]
    congr 1
    omega

theorem length_slice {start len : Nat} {xs : List α} (h : start + len ≤ xs.length) :
    (slice start len xs).length = len := by
  rw [slice, List.length_take, List.length_drop]
  omega

theorem chunksOf_eq_map_slice (size count : Nat) (xs : List α) :
    chunksOf size count xs = (List.range count).map fun i => slice (i * size) size xs := by
  induction count generalizing xs with
  | zero => rfl
  | succ count ih =>
    rw [chunksOf, ih, List.range_succ_eq_map, List.map_cons, List.map_map]
    congr 1
    · rw [Nat.zero_mul]
      rfl
    · refine List.map_congr_left ?_
      intro i _
      show ((xs.drop size).drop (i * size)).take size = (xs.drop ((i + 1) * size)).take size
      rw [List.drop_drop, Nat.succ_mul, Nat.add_comm]

/-- The pieces of a list, by their places. -/
theorem chunks_eq_map_slice (size : Nat) (xs : List α) :
    chunks size xs = (List.range (xs.length / size)).map fun i => slice (i * size) size xs :=
  chunksOf_eq_map_slice size _ xs

/-! ### Changing every piece by itself -/

/-- Every whole piece changed by itself; a shorter rest stays as it is. -/
def mapPieces (size : Nat) (f : List α → List α) (xs : List α) : List α :=
  (chunks size xs).flatMap f ++ xs.drop (xs.length / size * size)

theorem reverseChunks_eq_mapPieces (size : Nat) (xs : List α) :
    reverseChunks size xs = mapPieces size List.reverse xs := rfl

/-- What is left over by the pieces is shorter than a piece. -/
theorem length_leftover_lt {size : Nat} (hsize : 0 < size) (xs : List α) :
    (xs.drop (xs.length / size * size)).length < size := by
  have h := Nat.mod_lt xs.length hsize
  have hdiv := Nat.div_add_mod' xs.length size
  rw [List.length_drop]
  omega

section

variable {size : Nat} {f : List α → List α}

theorem length_flatMap_pieces (hf : ∀ p, p.length = size → (f p).length = size) (xs : List α) :
    ((chunks size xs).flatMap f).length = xs.length / size * size := by
  rw [length_flatMap_of_forall fun p hp => hf p (length_of_mem_chunks hp), length_chunks]

theorem length_mapPieces (hf : ∀ p, p.length = size → (f p).length = size) (xs : List α) :
    (mapPieces size f xs).length = xs.length := by
  have hle := Nat.div_mul_le_self xs.length size
  rw [mapPieces, List.length_append, length_flatMap_pieces hf, List.length_drop]
  omega

/-- The pieces of a changed buffer are the changed pieces of the buffer. -/
theorem chunks_mapPieces (hf : ∀ p, p.length = size → (f p).length = size) (xs : List α) :
    chunks size (mapPieces size f xs) = (chunks size xs).map f := by
  rcases Nat.eq_zero_or_pos size with rfl | hsize
  · simp [chunks, chunksOf]
  · have hpieces : ∀ q ∈ (chunks size xs).map f, q.length = size :=
      List.forall_mem_map.2 fun p hp => hf p (length_of_mem_chunks hp)
    rw [mapPieces, List.flatMap_def]
    exact chunks_flatten_append hsize hpieces _ (length_leftover_lt hsize xs)

/-- Where the change of a piece undoes itself, so does the change of the buffer. -/
theorem mapPieces_mapPieces (hf : ∀ p, p.length = size → (f p).length = size)
    (hff : ∀ p, p.length = size → f (f p) = p) (xs : List α) :
    mapPieces size f (mapPieces size f xs) = xs := by
  have hback : ((chunks size xs).map f).flatMap f = (chunks size xs).flatten := by
    have hid : (chunks size xs).map (f ∘ f) = (chunks size xs).map id :=
      List.map_congr_left fun p hp => hff p (length_of_mem_chunks hp)
    rw [List.flatMap_def, List.map_map, hid, List.map_id]
  have hrest : (mapPieces size f xs).drop (xs.length / size * size)
      = xs.drop (xs.length / size * size) := by
    rw [mapPieces, List.drop_left' (length_flatMap_pieces hf xs)]
  rw [mapPieces, chunks_mapPieces hf, length_mapPieces hf, hback, hrest, flatten_chunks_append]

end

/-! ### Words turned around -/

@[simp] theorem length_reverseChunks (size : Nat) (xs : List α) :
    (reverseChunks size xs).length = xs.length := by
  rw [reverseChunks_eq_mapPieces]
  exact length_mapPieces (fun _ hp => List.length_reverse.trans hp) xs

@[simp] theorem reverseChunks_reverseChunks (size : Nat) (xs : List α) :
    reverseChunks size (reverseChunks size xs) = xs := by
  rw [reverseChunks_eq_mapPieces, reverseChunks_eq_mapPieces]
  exact mapPieces_mapPieces (fun _ hp => List.length_reverse.trans hp)
    (fun p _ => List.reverse_reverse p) xs

end PointPatch
