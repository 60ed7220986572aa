/-
PointPatch/Proofs/Schema/Filling.lean

Slots filled one after another, each once.

`place` puts a dimension into a slot that has to be there and to be empty.
Dimensions can be placed one after another exactly if their positions are
those of different empty slots (`exists_foldlM_place_iff`); for as many
dimensions as there are empty slots, this says that every slot has its
dimension (`perm_range_iff`, which is the pigeonhole principle).

In which order they are placed shows in nothing but the index of names: the
slots are the same (`slots_of_foldlM_place`, `putAll_perm`), and where no two
dimensions share a name, names stand for the same slots
(`indexed_of_foldlM_place`).  The schemas on the way differ all the same, by
the slots that are filled already and by where the fields of these begin.
-/
import PointPatch.Proofs.Schema.Names
import PointPatch.Schema.Document
import Mathlib.Data.List.Nodup
import Mathlib.Data.List.Perm.Subperm

namespace PointPatch

/-- A list of numbers below its length, all different, has all of them. -/
theorem perm_range_iff {ps : List Nat} :
    ps.Perm (List.range ps.length) ↔ (∀ p ∈ ps, p < ps.length) ∧ ps.Nodup := by
  constructor
  · intro h
    exact ⟨fun p hp => List.mem_range.1 (h.subset hp), h.nodup_iff.2 List.nodup_range⟩
  · rintro ⟨hlt, hnodup⟩
    have hsub : ps ⊆ List.range ps.length := fun p hp => List.mem_range.2 (hlt p hp)
    exact (List.subperm_of_subset hnodup hsub).perm_of_length_le (by rw [List.length_range])

namespace Schema

variable {s s' : Schema} {d : Dimension} {ds ds' : List Dimension}

/-! ### One dimension -/

/-- Setting a dimension that has a slot does not fail. -/
theorem exists_set (h : d.position < s.slotCount) : ∃ s', s.set d = .ok s' :=
  ⟨_, set_eq_ok_iff.2 ⟨h, rfl⟩⟩

theorem place_eq_ok_iff :
    s.place d = .ok s' ↔
      d.position < s.slotCount ∧ s.dimension? d.position = none ∧ s.set d = .ok s' := by
  rw [place]
  by_cases hroom : s.slotCount ≤ d.position
  · rw [if_pos hroom]
    constructor
    · intro h
      cases h
    · exact fun h => absurd h.1 (Nat.not_lt.2 hroom)
  · rw [if_neg hroom]
    rcases hslot : s.dimension? d.position with - | previous
    · rw [Option.isSome_none, if_neg Bool.false_ne_true]
      exact ⟨fun h => ⟨Nat.lt_of_not_le hroom, rfl, h⟩, fun h => h.2.2⟩
    · rw [Option.isSome_some, if_pos rfl]
      constructor
      · intro h
        cases h
      · rintro ⟨-, hnone, -⟩
        cases hnone

/-- What keeps a dimension from being placed is its position; setting it is not what fails. -/
theorem eq_of_place_eq_error {fault : Fault} (h : s.place d = .error fault) :
    fault = .positionBeyondCount (d.position + 1) s.slotCount
      ∨ fault = .positionTaken (d.position + 1) := by
  rw [place] at h
  split at h
  · cases h
    exact .inl rfl
  · rename_i hroom
    split at h
    · cases h
      exact .inr rfl
    · obtain ⟨s', hset⟩ := exists_set (Nat.lt_of_not_le hroom)
      rw [hset] at h
      cases h

/-- A slot is empty after a dimension has been set, if it was before and is another one. -/
theorem dimension?_set_eq_none_iff (h : s.set d = .ok s') (i : Nat) :
    s'.dimension? i = none ↔ i ≠ d.position ∧ s.dimension? i = none := by
  obtain ⟨byteOffset, heq⟩ := dimension?_set h i
  rw [heq, Option.map_eq_none_iff]
  by_cases hi : i = d.position
  · rw [if_pos hi]
    simp [hi]
  · rw [if_neg hi]
    simp [hi]

/-! ### Dimensions one after another -/

/-- Whether dimensions have positions of different empty slots. -/
structure Fits (s : Schema) (ds : List Dimension) : Prop where
  position_lt : ∀ d ∈ ds, d.position < s.slotCount
  nodup : (ds.map Dimension.position).Nodup
  vacant : ∀ d ∈ ds, s.dimension? d.position = none

/-- Dimensions can be placed one after another if each has an empty slot to itself. -/
theorem exists_foldlM_place_iff : (∃ s', ds.foldlM place s = .ok s') ↔ s.Fits ds := by
  induction ds generalizing s with
  | nil => exact iff_of_true ⟨s, rfl⟩ ⟨by simp, by simp, by simp⟩
  | cons d ds ih =>
    rw [List.foldlM_cons]
    constructor
    · rintro ⟨s', h⟩
      obtain ⟨t, hplace, hrest⟩ := bind_eq_ok_iff.1 h
      obtain ⟨hlt, hvacant, hset⟩ := place_eq_ok_iff.1 hplace
      have hfits := ih.1 ⟨s', hrest⟩
      have hothers := fun d' hd' => (dimension?_set_eq_none_iff hset _).1 (hfits.vacant d' hd')
      refine ⟨?_, ?_, ?_⟩
      · refine List.forall_mem_cons.2 ⟨hlt, fun d' hd' => ?_⟩
        rw [← slotCount_set hset]
        exact hfits.position_lt d' hd'
      · rw [List.map_cons, List.nodup_cons]
        refine ⟨?_, hfits.nodup⟩
        rw [List.mem_map]
        rintro ⟨d', hd', hsame⟩
        exact (hothers d' hd').1 hsame
      · exact List.forall_mem_cons.2 ⟨hvacant, fun d' hd' => (hothers d' hd').2⟩
    · rintro ⟨hlt, hnodup, hvacant⟩
      rw [List.map_cons, List.nodup_cons] at hnodup
      obtain ⟨hhead, hlt⟩ := List.forall_mem_cons.1 hlt
      obtain ⟨hempty, hvacant⟩ := List.forall_mem_cons.1 hvacant
      obtain ⟨t, hset⟩ := exists_set hhead
      have hfits : t.Fits ds := by
        refine ⟨fun d' hd' => ?_, hnodup.2, fun d' hd' => ?_⟩
        · rw [slotCount_set hset]
          exact hlt d' hd'
        · apply (dimension?_set_eq_none_iff hset _).2
          exact ⟨fun hsame => hnodup.1 (List.mem_map.2 ⟨d', hd', hsame⟩), hvacant d' hd'⟩
      obtain ⟨s', hrest⟩ := ih.2 hfits
      exact ⟨s', bind_eq_ok_iff.2 ⟨t, place_eq_ok_iff.2 ⟨hhead, hempty, hset⟩, hrest⟩⟩

theorem Fits.perm (hp : ds'.Perm ds) (h : s.Fits ds) : s.Fits ds' where
  position_lt d hd := h.position_lt d (hp.subset hd)
  nodup := (hp.map Dimension.position).nodup_iff.2 h.nodup
  vacant d hd := h.vacant d (hp.subset hd)

/-! ### The slots that come out -/

/-- Slots with some dimensions put into those of their positions, one after another. -/
def putAll (slots : List (Option Dimension)) (ds : List Dimension) : List (Option Dimension) :=
  ds.foldl (fun slots d => slots.set d.position (some d)) slots

@[simp] theorem length_putAll (slots : List (Option Dimension)) (ds : List Dimension) :
    (putAll slots ds).length = slots.length := by
  induction ds generalizing slots with
  | nil => rfl
  | cons d ds ih => exact (ih _).trans List.length_set

/-- A slot that is not put anything into stays as it is. -/
theorem getElem?_putAll_of_forall_ne {slots : List (Option Dimension)} {i : Nat}
    (h : ∀ d ∈ ds, d.position ≠ i) : (putAll slots ds)[i]? = slots[i]? := by
  induction ds generalizing slots with
  | nil => rfl
  | cons d ds ih =>
    obtain ⟨hd, hds⟩ := List.forall_mem_cons.1 h
    exact (ih hds).trans (List.getElem?_set_ne hd)

/-- Where positions are different, every dimension ends up in its slot. -/
theorem getElem?_putAll {slots : List (Option Dimension)} (hnodup : (ds.map Dimension.position).Nodup)
    (hd : d ∈ ds) (hlt : d.position < slots.length) :
    (putAll slots ds)[d.position]? = some (some d) := by
  induction ds generalizing slots with
  | nil => cases hd
  | cons d₀ ds ih =>
    rw [List.map_cons, List.nodup_cons] at hnodup
    rcases List.mem_cons.1 hd with rfl | hd
    · have hothers : ∀ d' ∈ ds, d'.position ≠ d.position :=
        fun d' hd' hsame => hnodup.1 (List.mem_map.2 ⟨d', hd', hsame⟩)
      exact (getElem?_putAll_of_forall_ne hothers).trans (List.getElem?_set_self hlt)
    · exact ih hnodup.2 hd (by rwa [List.length_set])

/-- Where positions are different, their order makes no difference. -/
theorem putAll_perm (slots : List (Option Dimension)) (hp : ds'.Perm ds)
    (hnodup : (ds.map Dimension.position).Nodup) : putAll slots ds' = putAll slots ds := by
  refine hp.foldl_eq' ?_ slots
  intro d hd d' hd' slots
  by_cases hsame : d = d'
  · rw [hsame]
  · have hpositions : d.position ≠ d'.position := fun heq =>
      hsame (List.inj_on_of_nodup_map (((hp.map _).nodup_iff).2 hnodup) hd hd' heq)
    exact List.set_comm _ _ hpositions

/-- Placing dimensions fills their slots, lays the fields out, and changes nothing else but the
index of names. -/
theorem slots_of_foldlM_place {slots : List (Option Dimension)} (hs : s.slots = layOut 0 slots)
    (h : ds.foldlM place s = .ok s') :
    s' = { s with slots := layOut 0 (putAll slots ds), names := s'.names } := by
  induction ds generalizing s slots with
  | nil =>
    cases h
    show s' = { s' with slots := layOut 0 slots }
    rw [← hs]
  | cons d ds ih =>
    rw [List.foldlM_cons] at h
    obtain ⟨t, hplace, hrest⟩ := bind_eq_ok_iff.1 h
    obtain ⟨-, ht⟩ := set_eq_ok_iff.1 (place_eq_ok_iff.1 hplace).2.2
    have hslots : t.slots = layOut 0 (slots.set d.position (some d)) := by
      rw [ht, hs, layOut_set_layOut]
    rw [ih hslots hrest, ht]
    rfl

/-! ### Names -/

/-- Whether every dimension is found by its name. -/
def Indexed (s : Schema) : Prop :=
  ∀ i name, s.nameAt? i = some (Text.lowercase name) → s.position? name = some i

/-- A name stands for a slot exactly if the dimension there has it. -/
theorem Indexed.position?_eq_some_iff (h : s.Indexed) (hb : s.Built) {i : Nat} {name : String} :
    s.position? name = some i ↔ s.nameAt? i = some (Text.lowercase name) :=
  ⟨hb.nameAt?_of_position?, h i name⟩

/-- A dimension with a name of its own is found by it, and those before it are found still. -/
theorem Indexed.place (hs : s.Indexed) (h : s.place d = .ok s')
    (hfresh : ∀ i, s.nameAt? i ≠ some (Text.lowercase d.name)) : s'.Indexed := by
  obtain ⟨-, hvacant, hset⟩ := place_eq_ok_iff.1 h
  intro i name hname
  have hempty : s.nameAt? d.position = none := by
    rw [nameAt?, hvacant]
    rfl
  rw [nameAt?_set hset] at hname
  rw [position?_set hset, hempty]
  split at hname
  · -- the slot that has been filled
    rename_i hi
    rw [if_pos (Option.some.inj hname).symm, hi]
  · have hother : Text.lowercase name ≠ Text.lowercase d.name := by
      intro heq
      exact hfresh i (by rw [hname, heq])
    rw [if_neg hother, if_neg (by simp)]
    exact hs i name hname

theorem indexed_of_foldlM_place (hs : s.Indexed)
    (hnodup : (ds.map fun d => Text.lowercase d.name).Nodup)
    (hfresh : ∀ d ∈ ds, ∀ i, s.nameAt? i ≠ some (Text.lowercase d.name))
    (h : ds.foldlM Schema.place s = .ok s') : s'.Indexed := by
  induction ds generalizing s with
  | nil =>
    cases h
    exact hs
  | cons d ds ih =>
    rw [List.foldlM_cons] at h
    obtain ⟨t, hplace, hrest⟩ := bind_eq_ok_iff.1 h
    rw [List.map_cons, List.nodup_cons] at hnodup
    obtain ⟨hhead, hfresh⟩ := List.forall_mem_cons.1 hfresh
    refine ih (hs.place hplace hhead) hnodup.2 ?_ hrest
    intro d' hd' i
    rw [nameAt?_set (place_eq_ok_iff.1 hplace).2.2]
    split
    · intro heq
      exact hnodup.1 (List.mem_map.2 ⟨d', hd', (Option.some.inj heq).symm⟩)
    · exact hfresh d' hd' i

theorem built_of_foldlM_place (hs : s.Built) (h : ds.foldlM Schema.place s = .ok s') : s'.Built :=
  foldlM_invariant (fun _ _ _ ht hplace => ht.set (place_eq_ok_iff.1 hplace).2.2) hs h

end Schema

end PointPatch
