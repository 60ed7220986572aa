/-
PointPatch/Proofs/Schema/Names.lean

What the index from names to slots says of the slots.

Setting a dimension forgets the name of the one that it replaces, whichever
slot that name stands for by then, and makes its own name stand for its slot
(`position?_set`).  So the index never leads astray: a slot that a name stands
for holds a dimension of this name (`Built.nameAt?_of_position?`).  But it may
forget names.  A slot that has its name to itself is found if and only if no
other slot has had the name since the slot was set last
(`position?_afterSets_iff`); so of two dimensions that trade places, by being
set one after the other, the first is not found afterwards
(`tradingPlaces_forgets`).
-/
import PointPatch.Proofs.Schema.Slots
import Mathlib.Data.List.Infix

namespace PointPatch

/-! ### The index by itself -/

namespace NameIndex

theorem lookup_cons_eq (key key' : String) (slot : Nat) (index : NameIndex) :
    List.lookup key ((key', slot) :: index)
      = if key = key' then some slot else List.lookup key index := by
  rw [List.lookup_cons]
  by_cases h : key = key'
  · rw [beq_iff_eq.2 h, if_pos h]
  · rw [beq_eq_false_iff_ne.2 h, if_neg h]

theorem lookup_filter_ne (index : NameIndex) (key key' : String) :
    List.lookup key (index.filter fun entry => entry.1 != key')
      = if key = key' then none else List.lookup key index := by
  induction index with
  | nil => simp
  | cons entry index ih =>
    obtain ⟨k, slot⟩ := entry
    rw [lookup_cons_eq]
    by_cases hk : k = key'
    · -- the entry is left out, and it was one of the name that is forgotten
      subst hk
      rw [List.filter_cons_of_neg (by simp), ih]
      split <;> rfl
    · rw [List.filter_cons_of_pos (by simpa using hk), lookup_cons_eq, ih]
      by_cases hkey : key = k
      · subst hkey
        rw [if_pos rfl, if_pos rfl, if_neg hk]
      · rw [if_neg hkey, if_neg hkey]

theorem slot?_forget (index : NameIndex) (forgotten name : String) :
    (index.forget forgotten).slot? name
      = if Text.lowercase name = Text.lowercase forgotten then none else index.slot? name :=
  lookup_filter_ne index _ _

theorem slot?_assign (index : NameIndex) (given name : String) (slot : Nat) :
    (index.assign given slot).slot? name
      = if Text.lowercase name = Text.lowercase given then some slot else index.slot? name := by
  rw [slot?, assign, lookup_cons_eq]
  by_cases h : Text.lowercase name = Text.lowercase given
  · rw [if_pos h, if_pos h]
  · have hforget := slot?_forget index given name
    rw [if_neg h] at hforget
    rw [if_neg h, if_neg h]
    exact hforget

end NameIndex

namespace Schema

variable {s s' : Schema} {d : Dimension} {name : String}

/-! ### One setting -/

/-- The name, in small letters, of the dimension in a slot. -/
def nameAt? (s : Schema) (position : Nat) : Option String :=
  (s.dimension? position).map fun d => Text.lowercase d.name

theorem nameAt?_eq_some_iff {position : Nat} {key : String} :
    s.nameAt? position = some key ↔
      ∃ d, s.dimension? position = some d ∧ Text.lowercase d.name = key :=
  Option.map_eq_some_iff

theorem nameAt?_set (h : s.set d = .ok s') (position : Nat) :
    s'.nameAt? position
      = if position = d.position then some (Text.lowercase d.name) else s.nameAt? position := by
  obtain ⟨byteOffset, heq⟩ := dimension?_set h position
  rw [nameAt?, heq, nameAt?]
  by_cases hposition : position = d.position
  · rw [if_pos hposition, if_pos hposition]
    rfl
  · rw [if_neg hposition, if_neg hposition, Option.map_map]
    rfl

/-- A name stands for the slot that was set, if it is the name of what was put there; for none,
if it is the name of what was there; else for what it stood for. -/
theorem position?_set (h : s.set d = .ok s') (name : String) :
    s'.position? name
      = if Text.lowercase name = Text.lowercase d.name then some d.position
        else if s.nameAt? d.position = some (Text.lowercase name) then none
        else s.position? name := by
  obtain ⟨-, rfl⟩ := set_eq_ok_iff.1 h
  rw [position?, NameIndex.slot?_assign, nameAt?]
  congr 1
  rcases s.dimension? d.position with - | previous
  · rfl
  · show (s.names.forget previous.name).slot? name = _
    rw [NameIndex.slot?_forget]
    rw [Option.map_some]
    by_cases hname : Text.lowercase name = Text.lowercase previous.name
    · rw [if_pos hname, if_pos (congrArg some hname.symm)]
    · rw [if_neg hname, if_neg fun heq => hname (Option.some.inj heq).symm]
      rfl

/-! ### The index never leads astray -/

/-- A slot that a name stands for holds a dimension of this name. -/
theorem Built.nameAt?_of_position? (h : s.Built) {position : Nat}
    (hname : s.position? name = some position) :
    s.nameAt? position = some (Text.lowercase name) := by
  induction h generalizing position with
  | vacant count => cases hname
  | @set s s' d _ hset ih =>
    rw [position?_set hset] at hname
    rw [nameAt?_set hset]
    split at hname
    · rename_i heq
      cases hname
      rw [if_pos rfl, heq]
    split at hname
    · cases hname
    · -- the name stood for the slot before, which is not the one that has been replaced
      rename_i hkept
      have hbefore := ih hname
      rw [if_neg ?_, hbefore]
      rintro rfl
      exact hkept hbefore
  | resolveXY _ ih => exact ih hname
  | label _ _ _ _ ih => exact ih hname

theorem Built.exists_dimension?_of_position? (h : s.Built) {position : Nat}
    (hname : s.position? name = some position) :
    ∃ d, s.dimension? position = some d ∧ Text.lowercase d.name = Text.lowercase name :=
  nameAt?_eq_some_iff.1 (h.nameAt?_of_position? hname)

theorem dimensionNamed_eq_ok {position : Nat} (hname : s.position? name = some position)
    (hd : s.dimension? position = some d) : s.dimensionNamed name = .ok d := by
  rw [dimensionNamed, dimensionNamed?, hname, Option.bind_some, hd]

/-! ### Settings one after another -/

/-- The schema once a dimension has been set. Where there is no slot for it, nothing changes. -/
def afterSet (s : Schema) (d : Dimension) : Schema :=
  match s.set d with
  | .ok s' => s'
  | .error _ => s

/-- The schema once dimensions have been set, one after another. -/
def afterSets (s : Schema) (ds : List Dimension) : Schema := ds.foldl afterSet s

@[simp] theorem afterSets_nil (s : Schema) : s.afterSets [] = s := rfl

@[simp] theorem afterSets_cons (s : Schema) (d : Dimension) (ds : List Dimension) :
    s.afterSets (d :: ds) = (s.afterSet d).afterSets ds := rfl

theorem afterSets_append (s : Schema) (ds ds' : List Dimension) :
    s.afterSets (ds ++ ds') = (s.afterSets ds).afterSets ds' := List.foldl_append

theorem afterSet_of_slot (h : d.position < s.slotCount) : s.set d = .ok (s.afterSet d) := by
  have hset := set_eq_ok_iff.2 ⟨h, rfl⟩
  rw [afterSet, hset]

theorem afterSet_of_no_slot (h : ¬ d.position < s.slotCount) : s.afterSet d = s := by
  rw [afterSet]
  split
  · rename_i s' hset
    exact absurd (set_eq_ok_iff.1 hset).1 h
  · rfl

theorem slotCount_afterSet (s : Schema) (d : Dimension) :
    (s.afterSet d).slotCount = s.slotCount := by
  by_cases hslot : d.position < s.slotCount
  · exact slotCount_set (afterSet_of_slot hslot)
  · rw [afterSet_of_no_slot hslot]

theorem slotCount_afterSets (s : Schema) (ds : List Dimension) :
    (s.afterSets ds).slotCount = s.slotCount := by
  induction ds generalizing s with
  | nil => rfl
  | cons d ds ih => rw [afterSets_cons, ih, slotCount_afterSet]

theorem Built.afterSet (h : s.Built) (d : Dimension) : (s.afterSet d).Built := by
  by_cases hslot : d.position < s.slotCount
  · exact h.set (afterSet_of_slot hslot)
  · rw [afterSet_of_no_slot hslot]
    exact h

theorem Built.afterSets (h : s.Built) (ds : List Dimension) : (s.afterSets ds).Built := by
  induction ds generalizing s with
  | nil => exact h
  | cons d ds ih => exact ih (h.afterSet d)

/-! ### Which names are found -/

/-- No slot but one has a name. -/
def HasAlone (s : Schema) (position : Nat) (name : String) : Prop :=
  ∀ other, other ≠ position → s.nameAt? other ≠ some (Text.lowercase name)

/-- In the course of some settings a slot is set with a name, is not set again, and has the name
to itself from then on. -/
def KeepsName (s : Schema) (ds : List Dimension) (position : Nat) (name : String) : Prop :=
  ∃ earlier d later, ds = earlier ++ d :: later
    ∧ d.position = position ∧ Text.lowercase d.name = Text.lowercase name
    ∧ (∀ d' ∈ later, d'.position ≠ position)
    ∧ ∀ settled, settled <+: later →
        (s.afterSets (earlier ++ d :: settled)).HasAlone position name

/-- A name goes on to stand for its slot while the slot is not set again and has the name to
itself. -/
theorem position?_afterSets {position : Nat} {later : List Dimension}
    (hname : s.position? name = some position) (hother : ∀ d ∈ later, d.position ≠ position)
    (halone : ∀ settled, settled <+: later → (s.afterSets settled).HasAlone position name) :
    (s.afterSets later).position? name = some position := by
  induction later generalizing s with
  | nil => exact hname
  | cons d later ih =>
    have hposition : d.position ≠ position := hother d List.mem_cons_self
    refine ih ?_ (fun d' hd' => hother d' (List.mem_cons_of_mem d hd')) fun settled hsettled =>
      halone (d :: settled) (List.cons_prefix_cons.2 ⟨rfl, hsettled⟩)
    by_cases hslot : d.position < s.slotCount
    · have hset := afterSet_of_slot hslot
      -- what is set has another name, and so has what it replaces
      have hbefore : s.nameAt? d.position ≠ some (Text.lowercase name) :=
        halone [] List.nil_prefix d.position hposition
      have hafter := halone [d] (List.cons_prefix_cons.2 ⟨rfl, List.nil_prefix⟩) d.position hposition
      rw [afterSets_cons, afterSets_nil, nameAt?_set hset, if_pos rfl] at hafter
      rw [position?_set hset, if_neg fun heq => hafter (congrArg some heq.symm), if_neg hbefore]
      exact hname
    · rw [afterSet_of_no_slot hslot]
      exact hname

/-- A slot that has its name to itself and is found has kept it since it was set last. -/
theorem keepsName_of_position? (hs : s.Built) {ds : List Dimension} {position : Nat}
    (hvacant : s.position? name = none) (hname : (s.afterSets ds).position? name = some position)
    (halone : (s.afterSets ds).HasAlone position name) : s.KeepsName ds position name := by
  induction ds using List.reverseRecOn with
  | nil =>
    rw [afterSets_nil, hvacant] at hname
    cases hname
  | append_singleton ds d ih =>
    have hlast : s.afterSets (ds ++ [d]) = (s.afterSets ds).afterSet d := afterSets_append s ds [d]
    -- whatever settings kept the name before, the last one keeps it too
    have hextend : d.position ≠ position → s.KeepsName ds position name →
        s.KeepsName (ds ++ [d]) position name := by
      rintro hother ⟨earlier, d₀, later, rfl, hposition, hkey, hlater, hkept⟩
      refine ⟨earlier, d₀, later ++ [d], by simp, hposition, hkey, ?_, ?_⟩
      · simpa [or_imp, forall_and] using And.intro hlater hother
      · intro settled hsettled
        rcases List.prefix_concat_iff.1 hsettled with rfl | hsettled
        · have hwhole : earlier ++ d₀ :: (later ++ [d]) = earlier ++ d₀ :: later ++ [d] := by simp
          rw [hwhole]
          exact halone
        · exact hkept settled hsettled
    rw [hlast] at hname halone
    by_cases hslot : d.position < (s.afterSets ds).slotCount
    swap
    · -- nothing has been set
      rw [afterSet_of_no_slot hslot] at hname halone
      obtain ⟨d', hd', -⟩ := (hs.afterSets ds).exists_dimension?_of_position? hname
      refine hextend ?_ (ih hname halone)
      rintro rfl
      exact hslot (lt_slotCount_of_dimension? hd')
    have hset := afterSet_of_slot hslot
    by_cases hposition : d.position = position
    · -- the slot itself has been set
      have hkey := ((hs.afterSets ds).afterSet d).nameAt?_of_position? hname
      rw [nameAt?_set hset, if_pos hposition.symm] at hkey
      refine ⟨ds, d, [], rfl, hposition, Option.some.inj hkey, by simp, ?_⟩
      intro settled hsettled
      rw [List.prefix_nil.1 hsettled, hlast]
      exact halone
    · -- another slot has been set, with another name, and had another name before
      have hnew := halone d.position hposition
      rw [nameAt?_set hset, if_pos rfl] at hnew
      rw [position?_set hset, if_neg fun heq => hnew (congrArg some heq.symm)] at hname
      split at hname
      · cases hname
      rename_i hold
      refine hextend hposition (ih hname fun other hother => ?_)
      by_cases hsame : other = d.position
      · rw [hsame]
        exact hold
      · have hbefore := halone other hother
        rwa [nameAt?_set hset, if_neg hsame] at hbefore

/-- A slot that has its name to itself is found exactly if it has kept it since it was set
last. -/
theorem position?_afterSets_iff (hs : s.Built) {ds : List Dimension} {position : Nat}
    (hvacant : s.position? name = none) (hposition : position < s.slotCount)
    (halone : (s.afterSets ds).HasAlone position name) :
    (s.afterSets ds).position? name = some position ↔ s.KeepsName ds position name := by
  refine ⟨fun hname => keepsName_of_position? hs hvacant hname halone, ?_⟩
  rintro ⟨earlier, d, later, rfl, rfl, hkey, hlater, hkept⟩
  have hset := afterSet_of_slot (hposition.trans_eq (slotCount_afterSets s earlier).symm)
  rw [afterSets_append, afterSets_cons]
  refine position?_afterSets ?_ hlater fun settled hsettled => ?_
  · -- the name stands for the slot once it has been set
    rw [position?_set hset, if_pos hkey.symm]
  · have hstage := hkept settled hsettled
    rwa [afterSets_append, afterSets_cons] at hstage

/-- Whatever dimensions have been set, in whatever order: a slot that a name stands for holds a
dimension of this name; and a dimension that shares its name with no other is found by it, in any
case, exactly if its slot has kept the name since it was set last. -/
theorem index_sound_and_complete (count : Nat) (ds : List Dimension) :
    let s := (vacant count).afterSets ds
    (∀ name position, s.position? name = some position →
        ∃ d, s.dimension? position = some d ∧ Text.lowercase d.name = Text.lowercase name)
      ∧ ∀ position d name, s.dimension? position = some d →
        Text.lowercase name = Text.lowercase d.name → s.HasAlone position name →
        ((s.position? name = some position ∧ s.dimensionNamed name = .ok d)
          ↔ (vacant count).KeepsName ds position name) := by
  intro s
  have hb : s.Built := (Built.vacant count).afterSets ds
  refine ⟨fun name position => hb.exists_dimension?_of_position?, ?_⟩
  intro position d name hd hname halone
  have hposition : position < (vacant count).slotCount :=
    (lt_slotCount_of_dimension? hd).trans_eq (slotCount_afterSets _ ds)
  rw [← position?_afterSets_iff (Built.vacant count) rfl hposition halone]
  exact ⟨fun h => h.1, fun h => ⟨h, dimensionNamed_eq_ok h hd⟩⟩

/-- Two dimensions that trade places by being set one after the other. -/
def tradingPlaces : List Dimension :=
  [{ name := "A", position := 0, type := .uint8 }, { name := "B", position := 1, type := .uint8 },
   { name := "A", position := 1, type := .uint8 }, { name := "B", position := 0, type := .uint8 }]

/-- Of two dimensions that have traded places, each has its name to itself, but the one that was
set first is not found. -/
theorem tradingPlaces_forgets :
    let s := (vacant 2).afterSets tradingPlaces
    s.dimension? 1 = some { name := "A", position := 1, type := .uint8, byteOffset := 1 }
      ∧ s.HasAlone 1 "A" ∧ s.position? "A" = none
      ∧ s.dimensionNamed "A" = .error (.dimensionNotFound "A") := by
  refine ⟨by decide, ?_, by decide, by decide⟩
  rintro (- | - | other) hother
  · decide
  · exact absurd rfl hother
  · -- there are no more than two slots
    intro hnamed
    cases hnamed

end Schema

end PointPatch
