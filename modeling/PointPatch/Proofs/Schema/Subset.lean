/-
PointPatch/Proofs/Schema/Subset.lean

Slots picked out of a schema.

The schema of some slots can be had if all of them are there
(`exists_subset`).  Each of its slots holds what the slot that it was picked
from holds, with a position and a field of its own (`dimension?_of_picks`).
If all of them are filled, so are those of the new schema
(`exists_filled_subset`), and its dimensions are the picked ones, in the order
in which they were picked (`forall₂_dimensions_of_picks`).
-/
import PointPatch.Proofs.Schema.Slots

namespace PointPatch

namespace Schema

variable {s t : Schema}

/-! ### Picking one slot after another -/

/-- What is in a slot, as the dimension of another one. -/
def picked (s : Schema) (position slot : Nat) : Option Dimension :=
  (s.dimension? position).map ({ · with position := slot })

/-- What the slots at some positions hold, numbered from `start` on. -/
def picks (s : Schema) (start : Nat) : List Nat → List (Option Dimension)
  | [] => []
  | position :: positions => s.picked position start :: s.picks (start + 1) positions

@[simp] theorem length_picks (s : Schema) (start : Nat) (positions : List Nat) :
    (s.picks start positions).length = positions.length := by
  induction positions generalizing start with
  | nil => rfl
  | cons position positions ih => exact congrArg Nat.succ (ih (start + 1))

theorem getElem?_picks (s : Schema) (start : Nat) (positions : List Nat) (i : Nat) :
    (s.picks start positions)[i]? = positions[i]?.map fun position => s.picked position (start + i) := by
  induction positions generalizing start i with
  | nil => rfl
  | cons position positions ih =>
    cases i with
    | zero => rfl
    | succ i =>
      have hnumber : start + 1 + i = start + (i + 1) := by omega
      rw [← hnumber]
      exact ih (start + 1) i

/-- Puts what is in a slot into another slot of a second schema. -/
def pick (s t : Schema) (x : Nat × Nat) : Except Fault Schema :=
  match s.slots[x.1]? with
  | none => .error (.indexOutOfRange x.1 s.slotCount)
  | some none => .ok t
  | some (some d) => t.set { d with position := x.2 }

theorem subset_eq (s : Schema) (positions : List Nat) :
    s.subset positions
      = (positions.zipIdx.foldlM s.pick
          { vacant positions.length with pcid := s.pcid, srid := s.srid, target := s.target }
        >>= fun t => .ok t.resolveXY) := rfl

/-- A slot that has been picked fills the first of those that are left, and nothing else
changes. -/
theorem exists_pick {position : Nat} {done rest : List (Option Dimension)}
    (hposition : position < s.slotCount) (ht : t.slots = layOut 0 (done ++ none :: rest)) :
    ∃ t', s.pick t (position, done.length) = .ok t'
      ∧ t'.slots = layOut 0 (done ++ s.picked position done.length :: rest)
      ∧ t'.pcid = t.pcid ∧ t'.srid = t.srid ∧ t'.target = t.target := by
  rw [pick, getElem?_slots hposition, picked]
  rcases s.dimension? position with - | d
  · exact ⟨t, rfl, ht, rfl, rfl, rfl⟩
  · have hroom : done.length < t.slotCount := by
      rw [slotCount, ht, length_layOut, List.length_append, List.length_cons]
      omega
    refine ⟨_, set_eq_ok_iff.2 ⟨hroom, rfl⟩, ?_, rfl, rfl, rfl⟩
    show layOut 0 (t.slots.set done.length _) = _
    rw [ht, layOut_set_layOut, List.set_append_right _ _ (Nat.le_refl _), Nat.sub_self]
    rfl

theorem exists_foldlM_pick {positions : List Nat} {done : List (Option Dimension)}
    (hpositions : ∀ position ∈ positions, position < s.slotCount)
    (ht : t.slots = layOut 0 (done ++ List.replicate positions.length none)) :
    ∃ t', (positions.zipIdx done.length).foldlM s.pick t = .ok t'
      ∧ t'.slots = layOut 0 (done ++ s.picks done.length positions)
      ∧ t'.pcid = t.pcid ∧ t'.srid = t.srid ∧ t'.target = t.target := by
  induction positions generalizing done t with
  | nil => exact ⟨t, rfl, ht, rfl, rfl, rfl⟩
  | cons position positions ih =>
    obtain ⟨t₁, hpick, hslots, hpcid, hsrid, htarget⟩ :=
      exists_pick (hpositions position List.mem_cons_self) ht
    rw [← List.singleton_append, ← List.append_assoc] at hslots
    obtain ⟨t₂, hfold, hslots, hpcid', hsrid', htarget'⟩ :=
      ih (fun other hother => hpositions other (List.mem_cons_of_mem position hother)) hslots
    rw [List.length_append, List.length_singleton] at hfold hslots
    rw [List.append_assoc] at hslots
    exact ⟨t₂, bind_eq_ok_iff.2 ⟨t₁, hpick, hfold⟩, hslots, hpcid'.trans hpcid,
      hsrid'.trans hsrid, htarget'.trans htarget⟩

/-! ### The schema of some slots -/

/-- The schema of some slots, all of which are there. -/
theorem exists_subset {positions : List Nat}
    (hpositions : ∀ position ∈ positions, position < s.slotCount) :
    ∃ t, s.subset positions = .ok t ∧ t.slots = layOut 0 (s.picks 0 positions)
      ∧ t.pcid = s.pcid ∧ t.srid = s.srid ∧ t.target = s.target := by
  have hvacant : (vacant positions.length).slots
      = layOut 0 ([] ++ List.replicate positions.length none) :=
    (layOut_replicate_none 0 positions.length).symm
  obtain ⟨t, hfold, hslots, hsame⟩ := exists_foldlM_pick (t :=
    { vacant positions.length with pcid := s.pcid, srid := s.srid, target := s.target })
    hpositions hvacant
  refine ⟨t.resolveXY, ?_, hslots, hsame⟩
  rw [subset_eq]
  exact bind_eq_ok_iff.2 ⟨t, hfold, rfl⟩

variable {positions : List Nat}

theorem slotCount_of_picks (ht : t.slots = layOut 0 (s.picks 0 positions)) :
    t.slotCount = positions.length := by
  rw [slotCount, ht, length_layOut, length_picks]

/-- A slot of the new schema holds what the slot that it was picked from holds, with a position
and a field of its own. -/
theorem dimension?_of_picks (ht : t.slots = layOut 0 (s.picks 0 positions)) {j position : Nat}
    (hj : positions[j]? = some position) :
    ∃ byteOffset, t.dimension? j
      = (s.dimension? position).map ({ · with position := j, byteOffset }) := by
  refine ⟨0 + width (((s.picks 0 positions).take j).filterMap id), ?_⟩
  rw [dimension?, ht, getElem?_layOut, getElem?_picks, hj, Option.map_some, Nat.zero_add j, picked]
  rcases s.dimension? position with - | d <;> rfl

theorem forall₂_picks {ds : List Dimension}
    (hds : positions.Forall₂ (fun i d => s.dimension? i = some d) ds) (start : Nat) :
    ((s.picks start positions).filterMap id).Forall₂
      (fun d' d => ∃ position, d' = { d with position }) ds := by
  induction hds generalizing start with
  | nil => exact .nil
  | cons hd _ ih =>
    rw [picks, picked, hd]
    exact .cons ⟨start, rfl⟩ (ih (start + 1))

/-- If the slots are filled, the dimensions are the picked ones, in order. -/
theorem forall₂_dimensions_of_picks (ht : t.slots = layOut 0 (s.picks 0 positions))
    {ds : List Dimension} (hds : positions.Forall₂ (fun i d => s.dimension? i = some d) ds) :
    t.dimensions.Forall₂
      (fun d' d => ∃ position byteOffset, d' = { d with position, byteOffset }) ds := by
  rw [dimensions, ht]
  refine forall₂_comp ?_ (forall₂_filterMap_layOut 0 _) (forall₂_picks hds 0)
  rintro _ _ d ⟨byteOffset, rfl⟩ ⟨position, rfl⟩
  exact ⟨position, byteOffset, rfl⟩

theorem isFilled_of_picks (ht : t.slots = layOut 0 (s.picks 0 positions))
    (hfilled : ∀ position ∈ positions, (s.dimension? position).isSome) : t.isFilled = true := by
  rw [isFilled, List.all_eq_true]
  intro slot hslot
  obtain ⟨j, hj⟩ := List.getElem?_of_mem hslot
  have hlt : j < positions.length := by
    rw [← slotCount_of_picks ht]
    exact (List.getElem?_eq_some_iff.1 hj).1
  obtain ⟨byteOffset, hd⟩ := dimension?_of_picks ht (List.getElem?_eq_getElem hlt)
  have hsome := hfilled _ (List.getElem_mem hlt)
  rw [dimension?, hj] at hd
  obtain rfl : slot = _ := hd
  rw [Option.isSome_map]
  exact hsome

/-- Filled slots make a schema without empty ones. -/
theorem exists_filled_subset {ds : List Dimension}
    (hds : positions.Forall₂ (fun i d => s.dimension? i = some d) ds) :
    ∃ t, s.subset positions = .ok t ∧ t.slots = layOut 0 (s.picks 0 positions)
      ∧ t.isFilled = true := by
  have hslots : ∀ i ∈ positions, ∃ d, s.dimension? i = some d := by
    intro i hi
    obtain ⟨d, -, hd⟩ := exists_of_mem_right hds.flip hi
    exact ⟨d, hd⟩
  obtain ⟨t, ht, hpicks, -⟩ := exists_subset fun i hi =>
    lt_slotCount_of_dimension? (hslots i hi).choose_spec
  exact ⟨t, ht, hpicks, isFilled_of_picks hpicks fun i hi =>
    Option.isSome_iff_exists.2 (hslots i hi)⟩

end Schema

end PointPatch
