/-
PointPatch/Proofs/Patch/Room.lean

Room for points, and for the rows that they are held in.

Room is had if memory has a buffer of as many bytes.  A patch that has as many
bytes of rows as its header says, and no more points than there is room for, can
take another point: if it is full its room is doubled first, which is never less
than what the rows take already.
-/
import PointPatch.Patch.Rows
import PointPatch.Proofs.Outcome

namespace PointPatch

namespace RowPatch

variable {memory : Memory} {schema : Schema} {p q : RowPatch} {point : Point}

theorem withRoom_eq_ok_iff {capacity : Nat} :
    withRoom schema capacity memory = .ok p ↔
      memory.grants (capacity * schema.size) = true ∧ p = vacant schema capacity := by
  rw [withRoom]
  rcases memory.grants (capacity * schema.size) with - | -
  · exact iff_of_false (fun h => by cases h) (fun h => by cases h.1)
  · exact ⟨fun h => ⟨rfl, (Except.ok.inj h).symm⟩, fun h => congrArg Except.ok h.2.symm⟩

/-- A buffer that is to be had is none of more bytes than a word counts. -/
theorem checkRoom_eq_ok_iff {count : Nat} :
    checkRoom memory schema count = .ok () ↔ memory.grants (schema.size * count) = true := by
  rw [checkRoom]
  constructor
  · intro h
    split at h
    · cases h
    split at h
    · assumption
    · cases h
  · intro h
    have hword : schema.size * count < Nat.pow 2 64 :=
      Nat.lt_trans (memory.lt_of_grants h) (by decide)
    rw [if_neg (Nat.not_le.2 hword), if_pos h]

/-! ### Points that are added -/

/-- Room is made by leaving a patch as it is, or by doubling the room of one that is full. -/
theorem makeRoom_eq_ok_iff : p.makeRoom = .ok q ↔
    (p.count ≠ p.capacity ∧ q = p)
      ∨ (p.count = p.capacity ∧ p.rows.length ≤ max (2 * p.capacity) 1 * p.schema.size
        ∧ q = { p with capacity := max (2 * p.capacity) 1 }) := by
  rw [makeRoom]
  by_cases hfull : p.count = p.capacity
  · rw [if_neg (not_not_intro hfull)]
    by_cases hrows : max (2 * p.capacity) 1 * p.schema.size < p.rows.length
    · rw [if_pos hrows]
      simp [hfull, Nat.not_le.2 hrows]
    · rw [if_neg hrows]
      simp [hfull, Nat.not_lt.1 hrows, eq_comm]
  · rw [if_pos hfull]
    simp [hfull, eq_comm]

/-- A patch that is not overfull has room for a point once room has been made. -/
theorem capacity_of_makeRoom (h : p.makeRoom = .ok q) :
    ∃ capacity, q = { p with capacity } ∧ (p.count ≤ p.capacity → p.count < capacity) := by
  obtain ⟨hne, rfl⟩ | ⟨hfull, -, rfl⟩ := makeRoom_eq_ok_iff.1 h
  · exact ⟨q.capacity, rfl, fun hle => Nat.lt_of_le_of_ne hle hne⟩
  · exact ⟨_, rfl, fun _ => by omega⟩

/-- Room can be made in a patch that has as many bytes of rows as its header says. -/
theorem exists_makeRoom (hrows : p.rows.length = p.schema.size * p.count) :
    ∃ q, p.makeRoom = .ok q := by
  by_cases hfull : p.count = p.capacity
  · have hroom : p.rows.length ≤ max (2 * p.capacity) 1 * p.schema.size := by
      rw [hrows, hfull, Nat.mul_comm]
      exact Nat.mul_le_mul_right _ (by omega)
    exact ⟨_, makeRoom_eq_ok_iff.2 (.inr ⟨hfull, hroom, rfl⟩)⟩
  · exact ⟨p, makeRoom_eq_ok_iff.2 (.inl ⟨hfull, rfl⟩)⟩

/-- A point that is added is one of the schema, and its bytes follow the rows. -/
theorem parts_of_add (h : p.add point = .ok q) :
    point.data.length = p.schema.size ∧ ∃ r, p.makeRoom = .ok r
      ∧ q = { r with count := r.count + 1, bounds := q.bounds, rows := r.rows ++ point.data } := by
  rw [add, check_eq_ok_iff, not_or, not_not, not_not] at h
  obtain ⟨⟨-, hlength⟩, h⟩ := h
  obtain ⟨r, hr, h⟩ := bind_eq_ok_iff.1 h
  cases h
  exact ⟨hlength, r, hr, rfl⟩

/-- A point of the schema can be added to a patch that has as many bytes of rows as its header
says. -/
theorem exists_add (hrows : p.rows.length = p.schema.size * p.count)
    (hid : point.schema.pcid = p.schema.pcid) (hlength : point.data.length = p.schema.size) :
    ∃ q, p.add point = .ok q := by
  obtain ⟨r, hr⟩ := exists_makeRoom hrows
  rw [add]
  exact ⟨_, check_eq_ok_iff.2 ⟨by simp [hid, hlength], bind_eq_ok_iff.2 ⟨r, hr, rfl⟩⟩⟩

end RowPatch

end PointPatch
