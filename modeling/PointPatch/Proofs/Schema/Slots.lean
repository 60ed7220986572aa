/-
PointPatch/Proofs/Schema/Slots.lean

What is in the slots of a schema.

Laying out the fields of some slots decides where they begin and changes
nothing else (`getElem?_layOut`).  So a slot holds the dimension that was put
there last, up to the place of its field (`dimension?_set`), and a dimension
knows the slot that it is in (`Built.position_eq`).  The list of dimensions
leaves the empty slots out: a dimension has the place in it that its slot has
among the filled ones (`getElem?_dimensions_rank`), which is the number of the
slot where no slot in front is empty (`getElem?_dimensions`).
-/
import PointPatch.Proofs.Schema.Layout

namespace PointPatch

namespace Schema

variable {s s' : Schema} {d : Dimension}

/-! ### Fields laid out -/

@[simp] theorem length_layOut (start : Nat) (slots : List (Option Dimension)) :
    (layOut start slots).length = slots.length := by
  induction slots generalizing start with
  | nil => rfl
  | cons slot slots ih =>
    cases slot with
    | none => exact congrArg Nat.succ (ih start)
    | some d => exact congrArg Nat.succ (ih (start + d.size))

theorem layOut_replicate_none (start count : Nat) :
    layOut start (List.replicate count none) = List.replicate count none := by
  induction count with
  | zero => rfl
  | succ count ih => exact congrArg (none :: ·) ih

/-- Each dimension stays in its slot, with a field that begins where those in front end. -/
theorem getElem?_layOut (start : Nat) (slots : List (Option Dimension)) (i : Nat) :
    (layOut start slots)[i]? = slots[i]?.map (Option.map fun d =>
      { d with byteOffset := start + width ((slots.take i).filterMap id) }) := by
  induction slots generalizing start i with
  | nil => rfl
  | cons slot slots ih =>
    cases i with
    | zero => cases slot <;> rfl
    | succ i =>
      cases slot with
      | none => exact ih start i
      | some d =>
        have hwidth : start + d.size + width ((slots.take i).filterMap id)
            = start + width (((some d :: slots).take (i + 1)).filterMap id) :=
          Nat.add_assoc start d.size _
        rw [← hwidth]
        exact ih (start + d.size) i

/-- Where fields were before makes no difference to where they are laid out. -/
theorem layOut_layOut (start before : Nat) (slots : List (Option Dimension)) :
    layOut start (layOut before slots) = layOut start slots := by
  induction slots generalizing start before with
  | nil => rfl
  | cons slot slots ih =>
    cases slot with
    | none => exact congrArg (none :: ·) (ih start before)
    | some d =>
      exact congrArg (some { d with byteOffset := start } :: ·) (ih (start + d.size) (before + d.size))

theorem layOut_set_layOut (start before : Nat) (slots : List (Option Dimension)) (i : Nat)
    (slot : Option Dimension) :
    layOut start ((layOut before slots).set i slot) = layOut start (slots.set i slot) := by
  induction slots generalizing start before i with
  | nil => rfl
  | cons head slots ih =>
    cases i with
    | zero =>
      -- the slot in front is replaced, and those behind it are laid out anew
      cases head <;> cases slot <;> simp [layOut, layOut_layOut]
    | succ i =>
      cases head with
      | none => exact congrArg (none :: ·) (ih start before i)
      | some d =>
        exact congrArg (some { d with byteOffset := start } :: ·)
          (ih (start + d.size) (before + d.size) i)

/-- Dimensions whose fields have been laid out are the same but for where these begin. -/
theorem forall₂_filterMap_layOut (start : Nat) (slots : List (Option Dimension)) :
    ((layOut start slots).filterMap id).Forall₂
      (fun placed d => ∃ byteOffset, placed = { d with byteOffset }) (slots.filterMap id) := by
  induction slots generalizing start with
  | nil => exact .nil
  | cons slot slots ih =>
    cases slot with
    | none => exact ih start
    | some d => exact .cons ⟨start, rfl⟩ (ih (start + d.size))

/-! ### Setting -/

/-- A dimension can be set exactly if there is a slot in its position. -/
theorem set_eq_ok_iff :
    s.set d = .ok s' ↔ d.position < s.slotCount ∧ s' = { s with
      slots := layOut 0 (s.slots.set d.position (some d))
      names := ((s.dimension? d.position).elim s.names fun p => s.names.forget p.name).assign
        d.name d.position } := by
  rw [Schema.set, dimension?, slotCount]
  by_cases h : d.position < s.slots.length
  · rw [List.getElem?_eq_getElem h]
    cases s.slots[d.position] <;> simp [h, eq_comm]
  · rw [List.getElem?_eq_none (Nat.le_of_not_lt h)]
    simp [h]

theorem slotCount_set (h : s.set d = .ok s') : s'.slotCount = s.slotCount := by
  obtain ⟨-, rfl⟩ := set_eq_ok_iff.1 h
  simp [slotCount]

/-- A slot holds what was put there last, up to the place of its field. -/
theorem dimension?_set (h : s.set d = .ok s') (i : Nat) :
    ∃ byteOffset, s'.dimension? i
      = (if i = d.position then some d else s.dimension? i).map ({ · with byteOffset }) := by
  obtain ⟨hlt, rfl⟩ := set_eq_ok_iff.1 h
  refine ⟨0 + width (((s.slots.set d.position (some d)).take i).filterMap id), ?_⟩
  rw [dimension?, getElem?_layOut, List.getElem?_set]
  by_cases hi : i = d.position
  · subst hi
    have hlt' : d.position < s.slots.length := hlt
    rw [if_pos rfl, if_pos rfl, if_pos hlt']
    rfl
  · rw [if_neg hi, if_neg (Ne.symm hi), dimension?]
    rcases s.slots[i]? with - | - | x <;> rfl

theorem mem_dimensions_of_dimension? {i : Nat} (h : s.dimension? i = some d) :
    d ∈ s.dimensions := by
  rw [dimension?, Option.join_eq_some_iff] at h
  exact List.mem_filterMap.2 ⟨some d, List.mem_of_getElem? h, rfl⟩

/-- Every dimension is in some slot. -/
theorem exists_dimension?_of_mem (h : d ∈ s.dimensions) : ∃ i, s.dimension? i = some d := by
  obtain ⟨slot, hslot, rfl⟩ := List.mem_filterMap.1 h
  obtain ⟨i, hi⟩ := List.getElem?_of_mem hslot
  exact ⟨i, Option.join_eq_some_iff.2 hi⟩

theorem lt_slotCount_of_dimension? {i : Nat} (h : s.dimension? i = some d) : i < s.slotCount := by
  rw [dimension?, Option.join_eq_some_iff] at h
  exact (List.getElem?_eq_some_iff.1 h).1

theorem getElem?_slots {i : Nat} (h : i < s.slotCount) : s.slots[i]? = some (s.dimension? i) := by
  rw [dimension?, List.getElem?_eq_getElem h, Option.join_some]

theorem dimensionAt_eq_ok {i : Nat} (h : s.dimension? i = some d) : s.dimensionAt i = .ok d := by
  rw [dimensionAt, h]

/-- The dimension in a slot knows which one it is in. -/
theorem Built.position_eq (h : s.Built) {i : Nat} (hd : s.dimension? i = some d) :
    d.position = i := by
  induction h generalizing i d with
  | vacant count =>
    have hslot := Option.join_eq_some_iff.1 hd
    cases (List.mem_replicate.1 (List.mem_of_getElem? hslot)).2
  | @set s s' new _ hset ih =>
    obtain ⟨byteOffset, heq⟩ := dimension?_set hset i
    rw [heq, Option.map_eq_some_iff] at hd
    obtain ⟨x, hx, rfl⟩ := hd
    split at hx
    · rename_i hi
      cases hx
      exact hi.symm
    · exact ih (d := x) hx
  | resolveXY _ ih => exact ih hd
  | label _ _ _ _ ih => exact ih hd

/-! ### Slots without empty ones in front -/

/-- How many of the slots in front of a slot are filled. -/
def rank (s : Schema) (i : Nat) : Nat := (s.slots.take i).countP Option.isSome

/-- Among the dimensions, one has the place that its slot has among the filled slots. -/
theorem getElem?_dimensions_rank {i : Nat} (hd : s.dimension? i = some d) :
    s.dimensions[s.rank i]? = some d := by
  simp only [dimension?, dimensions, rank] at hd ⊢
  generalize s.slots = slots at hd ⊢
  induction slots generalizing i with
  | nil => cases hd
  | cons slot slots ih =>
    cases i with
    | zero =>
      obtain rfl : slot = some d := hd
      rfl
    | succ i =>
      cases slot with
      | none => exact ih hd
      | some first =>
        rw [List.take_succ_cons, List.countP_cons_of_pos rfl]
        exact ih hd

/-- The filled slots in front are all there are exactly if none in front is empty. -/
theorem rank_eq_iff {i : Nat} (hi : i ≤ s.slotCount) :
    s.rank i = i ↔ ∀ j < i, (s.dimension? j).isSome := by
  have hlength : (s.slots.take i).length = i := List.length_take_of_le hi
  have hall : s.rank i = i ↔ ∀ slot ∈ s.slots.take i, slot.isSome = true := by
    rw [← List.countP_eq_length, hlength, rank]
  rw [hall, List.forall_mem_iff_forall_getElem]
  simp only [hlength, List.getElem_take]
  refine forall₂_congr fun j hj => ?_
  rw [dimension?, List.getElem?_eq_getElem (Nat.lt_of_lt_of_le hj hi), Option.join_some]

/-- Where no slot in front is empty, a dimension has the place of its slot. -/
theorem getElem?_dimensions {i : Nat} (hd : s.dimension? i = some d)
    (hfront : ∀ j < i, (s.dimension? j).isSome) : s.dimensions[i]? = some d := by
  have hrank := (rank_eq_iff (Nat.le_of_lt (lt_slotCount_of_dimension? hd))).2 hfront
  rw [← getElem?_dimensions_rank hd, hrank]

theorem isSome_dimension?_of_isFilled (h : s.isFilled = true) {i : Nat} (hi : i < s.slotCount) :
    (s.dimension? i).isSome := by
  rw [isFilled, List.all_eq_true] at h
  have hslot := h s.slots[i] (List.getElem_mem hi)
  rw [dimension?, List.getElem?_eq_getElem hi]
  exact hslot

/-- Without empty slots, dimensions are numbered as the slots are. -/
theorem dimension?_of_isFilled (h : s.isFilled = true) (i : Nat) :
    s.dimension? i = s.dimensions[i]? := by
  by_cases hi : i < s.slotCount
  · obtain ⟨d, hd⟩ := Option.isSome_iff_exists.1 (isSome_dimension?_of_isFilled h hi)
    rw [hd, getElem?_dimensions hd fun j hj =>
      isSome_dimension?_of_isFilled h (Nat.lt_trans hj hi)]
  · have hnone : s.dimensions[i]? = none := by
      apply List.getElem?_eq_none
      rw [length_dimensions h]
      exact Nat.le_of_not_lt hi
    rw [hnone, dimension?, List.getElem?_eq_none (Nat.le_of_not_lt hi), Option.join_none]

end Schema

end PointPatch
