/-
PointPatch/Proofs/Schema/Composition.lean

Slots picked out of slots that have been picked out.

Picking fails by a slot that is not there, the first one if there are several,
and by nothing else (`subset_eq_error_iff`).  Picking twice is picking once: the
schema of some slots of a schema of some slots is the schema of the slots that
these were picked from (`subset_subset`).  The two agree in everything, the
index of names and the coordinates included, because a slot is picked by setting
what it holds, and where the field of that began has no part in a setting
(`set_withByteOffset`).  `subset_composes` says all that of schemas with empty
slots and of positions that repeat.

A schema may have forgotten some of its names.  One that has been made by
picking slots has not (`knowsNames_of_subset`), since each of its slots was
empty when it was set, so that there was nothing to forget.
-/
import PointPatch.Proofs.Schema.Names
import PointPatch.Proofs.Schema.Subset

namespace PointPatch

namespace Schema

variable {s s' t t' u : Schema} {d : Dimension} {positions inner outer : List Nat}

/-! ### Fields before and after -/

/-- Where the field of a dimension was makes no difference to how slots are laid out. -/
theorem layOut_set_withByteOffset (start : Nat) (slots : List (Option Dimension)) (i : Nat)
    (d : Dimension) (byteOffset : Nat) :
    layOut start (slots.set i (some { d with byteOffset }))
      = layOut start (slots.set i (some d)) := by
  induction slots generalizing start i with
  | nil => rfl
  | cons slot slots ih =>
    cases i with
    | zero => rfl
    | succ i =>
      cases slot with
      | none => exact congrArg (none :: ·) (ih start i)
      | some x => exact congrArg (some { x with byteOffset := start } :: ·) (ih (start + x.size) i)

theorem set_withByteOffset (s : Schema) (d : Dimension) (byteOffset : Nat) :
    s.set { d with byteOffset } = s.set d := by
  rw [Schema.set, Schema.set]
  dsimp only
  rw [layOut_set_withByteOffset]

/-! ### Picking twice -/

theorem lt_slotCount_of_pick {x : Nat × Nat} (h : s.pick t x = .ok t') : x.1 < s.slotCount := by
  by_contra hlt
  rw [pick, List.getElem?_eq_none (Nat.le_of_not_lt hlt)] at h
  cases h

theorem lt_slotCount_of_foldlM_pick {start : Nat}
    (h : (positions.zipIdx start).foldlM s.pick t = .ok t') :
    ∀ position ∈ positions, position < s.slotCount := by
  induction positions generalizing start t with
  | nil => simp
  | cons position positions ih =>
    rw [List.zipIdx_cons, List.foldlM_cons] at h
    obtain ⟨next, hpick, h⟩ := bind_eq_ok_iff.1 h
    exact List.forall_mem_cons.2 ⟨lt_slotCount_of_pick hpick, ih h⟩

/-- Only slots that are there are picked. -/
theorem lt_slotCount_of_subset (h : s.subset positions = .ok t) :
    ∀ position ∈ positions, position < s.slotCount := by
  rw [subset_eq] at h
  obtain ⟨t', hfold, -⟩ := bind_eq_ok_iff.1 h
  exact lt_slotCount_of_foldlM_pick hfold

/-- Picking a slot that is there does not fail. -/
theorem exists_pick_of_lt {position slot : Nat} (hposition : position < s.slotCount)
    (hslot : slot < t.slotCount) :
    ∃ t', s.pick t (position, slot) = .ok t' ∧ t'.slotCount = t.slotCount := by
  rw [pick, getElem?_slots hposition]
  rcases s.dimension? position with - | d
  · exact ⟨t, rfl, rfl⟩
  · have hset := (set_eq_ok_iff (s := t) (d := { d with position := slot })).2 ⟨hslot, rfl⟩
    exact ⟨_, hset, slotCount_set hset⟩

/-- Of the slots that are not there, the first one is what picking fails by. -/
theorem foldlM_pick_eq_error {start position : Nat} (ht : start + positions.length ≤ t.slotCount)
    (h : positions.find? (fun position => s.slotCount ≤ position) = some position) :
    (positions.zipIdx start).foldlM s.pick t = .error (.indexOutOfRange position s.slotCount) := by
  induction positions generalizing start t with
  | nil => cases h
  | cons first positions ih =>
    rw [List.length_cons] at ht
    rw [List.zipIdx_cons, List.foldlM_cons]
    by_cases hfirst : s.slotCount ≤ first
    · rw [List.find?_cons_of_pos (by simpa using hfirst)] at h
      cases h
      rw [pick, List.getElem?_eq_none hfirst]
      rfl
    · rw [List.find?_cons_of_neg (by simpa using hfirst)] at h
      have hslot : start < t.slotCount := by omega
      obtain ⟨t', hpick, hcount⟩ := exists_pick_of_lt (Nat.lt_of_not_le hfirst) hslot
      rw [hpick, ok_bind]
      exact ih (by omega) h

theorem subset_eq_error_iff {fault : Fault} :
    s.subset positions = .error fault ↔ ∃ position,
      positions.find? (fun position => s.slotCount ≤ position) = some position
        ∧ fault = .indexOutOfRange position s.slotCount := by
  rcases hfind : positions.find? (fun position => s.slotCount ≤ position) with - | position
  · -- all slots are there
    have hpositions : ∀ position ∈ positions, position < s.slotCount := by
      simpa using hfind
    obtain ⟨t, ht, -⟩ := exists_subset hpositions
    rw [ht]
    simp
  · have hroom : 0 + positions.length ≤ (vacant positions.length).slotCount := by
      simp [slotCount, vacant]
    have herror := foldlM_pick_eq_error (s := s) (t :=
      { vacant positions.length with pcid := s.pcid, srid := s.srid, target := s.target }) hroom hfind
    rw [subset_eq, herror, error_bind]
    simp [eq_comm]

/-- The coordinates of a schema of slots are found by name, like those of any schema. -/
theorem coordinates_of_subset (h : s.subset positions = .ok t) :
    t.xPosition = t.findAny xNames ∧ t.yPosition = t.findAny yNames := by
  rw [subset_eq] at h
  obtain ⟨t', -, h⟩ := bind_eq_ok_iff.1 h
  cases h
  exact ⟨rfl, rfl⟩

/-- What is picked from a slot that has been picked is what is picked from the slot behind it. -/
theorem pick_of_picks (ht : t.slots = layOut 0 (s.picks 0 positions)) {j i : Nat}
    (hj : positions[j]? = some i) (hi : i < s.slotCount) (u : Schema) (slot : Nat) :
    t.pick u (j, slot) = s.pick u (i, slot) := by
  have hslot : j < t.slotCount := by
    rw [slotCount_of_picks ht]
    exact (List.getElem?_eq_some_iff.1 hj).1
  obtain ⟨byteOffset, hd⟩ := dimension?_of_picks ht hj
  rw [pick, pick, getElem?_slots hslot, getElem?_slots hi, hd]
  rcases s.dimension? i with - | d
  · rfl
  · exact set_withByteOffset u { d with position := slot } byteOffset

theorem foldlM_pick_congr
    (h : inner.Forall₂ (fun j i => ∀ u slot, t.pick u (j, slot) = s.pick u (i, slot)) outer)
    (start : Nat) (u : Schema) :
    (inner.zipIdx start).foldlM t.pick u = (outer.zipIdx start).foldlM s.pick u := by
  induction h generalizing start u with
  | nil => rfl
  | cons hpick _ ih =>
    rw [List.zipIdx_cons, List.zipIdx_cons, List.foldlM_cons, List.foldlM_cons, hpick]
    apply congrArg
    funext u'
    exact ih (start + 1) u'

/-- The schema of slots of a schema of slots is the schema of the slots behind them. -/
theorem subset_subset (ht : s.subset positions = .ok t)
    (h : inner.Forall₂ (fun j i => positions[j]? = some i) outer) :
    t.subset inner = s.subset outer := by
  have hpositions := lt_slotCount_of_subset ht
  obtain ⟨t', ht', hslots, hpcid, hsrid, htarget⟩ := exists_subset hpositions
  cases ht.symm.trans ht'
  have hpicks : inner.Forall₂ (fun j i => ∀ u slot, t.pick u (j, slot) = s.pick u (i, slot)) outer :=
    h.imp fun j i hj => pick_of_picks hslots hj (hpositions i (List.mem_of_getElem? hj))
  rw [subset_eq, subset_eq, hpcid, hsrid, htarget, h.length_eq, foldlM_pick_congr hpicks]

theorem forall₂_filterMap_getElem? (h : ∀ j ∈ inner, j < positions.length) :
    inner.Forall₂ (fun j i => positions[j]? = some i) (inner.filterMap fun j => positions[j]?) := by
  induction inner with
  | nil => exact .nil
  | cons j inner ih =>
    obtain ⟨hj, hinner⟩ := List.forall_mem_cons.1 h
    have hi := List.getElem?_eq_getElem hj
    rw [List.filterMap_cons_some hi]
    exact .cons hi (ih hinner)

/-- Picking fails exactly by the first slot that is not there. Else each slot of the new schema
holds what the slot behind it holds, in a place of its own, or nothing if that is empty; the ids
and the form of patches are kept, and the coordinates are found by name anew. Picking out of what
has been picked gives the schema that picking the slots behind gives, in all that a schema says. -/
theorem subset_composes (s : Schema) :
    (∀ positions fault, s.subset positions = .error fault ↔ ∃ position,
        positions.find? (fun position => s.slotCount ≤ position) = some position
          ∧ fault = .indexOutOfRange position s.slotCount)
      ∧ (∀ positions, (∀ position ∈ positions, position < s.slotCount) →
          ∃ t, s.subset positions = .ok t ∧ t.slotCount = positions.length
            ∧ (∀ j position, positions[j]? = some position → ∃ byteOffset, t.dimension? j
                = (s.dimension? position).map ({ · with position := j, byteOffset }))
            ∧ t.pcid = s.pcid ∧ t.srid = s.srid ∧ t.target = s.target
            ∧ t.xPosition = t.findAny xNames ∧ t.yPosition = t.findAny yNames)
      ∧ ∀ positions inner, (∀ position ∈ positions, position < s.slotCount) →
          (∀ j ∈ inner, j < positions.length) →
          ∃ t u, s.subset positions = .ok t ∧ t.subset inner = .ok u
            ∧ s.subset (inner.filterMap fun j => positions[j]?) = .ok u := by
  refine ⟨fun positions fault => subset_eq_error_iff, ?_, ?_⟩
  · intro positions hpositions
    obtain ⟨t, ht, hslots, hpcid, hsrid, htarget⟩ := exists_subset hpositions
    exact ⟨t, ht, slotCount_of_picks hslots, fun j position => dimension?_of_picks hslots, hpcid,
      hsrid, htarget, coordinates_of_subset ht⟩
  · intro positions inner hpositions hinner
    obtain ⟨t, ht, hslots, -⟩ := exists_subset hpositions
    have hrange : ∀ j ∈ inner, j < t.slotCount := by
      rw [slotCount_of_picks hslots]
      exact hinner
    obtain ⟨u, hu, -⟩ := exists_subset hrange
    exact ⟨t, u, ht, hu, (subset_subset ht (forall₂_filterMap_getElem? hinner)).symm.trans hu⟩

/-- Two coordinates with an empty slot between them, picked with repetitions, and two faults of
which the first is reported. -/
theorem subset_composes_openMiddle :
    let s := (vacant 3).afterSets
      [{ name := "Lon", position := 0, type := .int32 }, { name := "y", position := 2, type := .int16 }]
    s.subset [1, 7, 5] = .error (.indexOutOfRange 7 3)
      ∧ ∃ t u, s.subset [2, 1, 0, 2] = .ok t ∧ t.subset [3, 1, 2, 0] = .ok u
        ∧ s.subset [2, 1, 0, 2] = .ok u ∧ u.position? "Y" = some 3 ∧ u.yPosition = some 0
        ∧ u.xPosition = some 2 ∧ u.size = 8 := by
  intro s
  obtain ⟨hfault, -, hpicks⟩ := subset_composes s
  obtain ⟨t, u, ht, hu, hsame⟩ := hpicks [2, 1, 0, 2] [3, 1, 2, 0] (by decide) (by decide)
  refine ⟨(hfault _ _).2 ⟨7, by decide, rfl⟩, t, u, ht, hu, hsame, ?_⟩
  cases hsame
  decide

/-! ### Names -/

/-- A slot that has been picked has the name of the slot behind it. -/
theorem nameAt?_of_picks (ht : t.slots = layOut 0 (s.picks 0 positions)) {j i : Nat}
    (hj : positions[j]? = some i) : t.nameAt? j = s.nameAt? i := by
  obtain ⟨byteOffset, hd⟩ := dimension?_of_picks ht hj
  rw [nameAt?, nameAt?, hd, Option.map_map]
  rfl

/-- The index knows the names of all dimensions. -/
def KnowsNames (s : Schema) : Prop :=
  ∀ i d, s.dimension? i = some d → ∃ j, s.position? d.name = some j

/-- What is put into an empty slot makes no name forgotten. -/
theorem KnowsNames.set (h : s.KnowsNames) (hset : s.set d = .ok s')
    (hempty : s.dimension? d.position = none) : s'.KnowsNames := by
  intro i x hx
  obtain ⟨byteOffset, heq⟩ := dimension?_set hset i
  rw [heq, Option.map_eq_some_iff] at hx
  obtain ⟨before, hbefore, rfl⟩ := hx
  rw [position?_set hset, nameAt?, hempty]
  split at hbefore
  · -- the slot that has been set
    cases hbefore
    exact ⟨d.position, if_pos rfl⟩
  · obtain ⟨j, hj⟩ := h i before hbefore
    split
    · exact ⟨d.position, rfl⟩
    · exact ⟨j, hj⟩

theorem knowsNames_of_foldlM_pick {start : Nat} (ht : t.KnowsNames)
    (hempty : ∀ i, start ≤ i → t.dimension? i = none)
    (h : (positions.zipIdx start).foldlM s.pick t = .ok t') : t'.KnowsNames := by
  induction positions generalizing start t with
  | nil =>
    cases h
    exact ht
  | cons position positions ih =>
    rw [List.zipIdx_cons, List.foldlM_cons] at h
    obtain ⟨next, hpick, h⟩ := bind_eq_ok_iff.1 h
    rw [pick] at hpick
    split at hpick
    · cases hpick
    · cases hpick
      exact ih ht (fun i hi => hempty i (Nat.le_of_succ_le hi)) h
    · refine ih (ht.set hpick (hempty start (Nat.le_refl start))) (fun i hi => ?_) h
      obtain ⟨byteOffset, heq⟩ := dimension?_set hpick i
      rw [heq, if_neg (Nat.ne_of_gt hi), hempty i (Nat.le_of_succ_le hi)]
      rfl

/-- A schema that has been made by picking slots knows all its names. -/
theorem knowsNames_of_subset (h : s.subset positions = .ok t) : t.KnowsNames := by
  rw [subset_eq] at h
  obtain ⟨t', hfold, h⟩ := bind_eq_ok_iff.1 h
  cases h
  have hvacant : ∀ i, (vacant positions.length).dimension? i = none := by
    intro i
    rw [dimension?, vacant, List.getElem?_replicate]
    split <;> rfl
  have hnone : ({ vacant positions.length with
      pcid := s.pcid, srid := s.srid, target := s.target } : Schema).KnowsNames := by
    intro i d hd
    cases (hvacant i).symm.trans hd
  -- looking for the coordinates leaves slots and names alone
  have hknown : t'.KnowsNames := knowsNames_of_foldlM_pick hnone (fun i _ => hvacant i) hfold
  exact hknown

end Schema

end PointPatch
