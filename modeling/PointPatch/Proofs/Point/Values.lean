/-
PointPatch/Proofs/Point/Values.lean

Values given to a point, all at once or one by one.

A point can be made of a list of values, one for each slot, or out of zeros by
writing into one slot after another.  Writing into each filled slot once makes
a point that stores every value in the slot that it was written into, and there
is only one such point (`Stores.eq`); so the order of the writes makes no
difference (`setAllAt_of_assigns`).

Making a point of a list pairs the values with the filled slots, in order.  A
dimension then stores the value whose number is how many slots in front of its
own are filled (`exists_ofValues`).  Where no filled slot has an empty one in
front, this is the value of its slot, and both ways make the same point
(`ofValues_eq_setAllAt`).  Behind an empty slot, a dimension gets the value of
another one (`ofValues_behind_empty_slot`).
-/
import PointPatch.Proofs.Schema.Fields
import PointPatch.Proofs.Schema.Names

namespace PointPatch

namespace Schema

/-- Writes that give a value to each filled slot, once each, in whatever order. -/
structure Assigns (s : Schema) (value : Nat → Option Double) (writes : List (Nat × Double)) :
    Prop where
  nodup : (writes.map Prod.fst).Nodup
  isSome : ∀ w ∈ writes, (s.dimension? w.1).isSome
  mem : ∀ i < s.slotCount, (s.dimension? i).isSome → i ∈ writes.map Prod.fst
  value_eq : ∀ w ∈ writes, value w.1 = some w.2

/-- No filled slot has an empty one in front. -/
def IsPacked (s : Schema) : Prop :=
  ∀ i < s.slotCount, (s.dimension? i).isSome → ∀ j < i, (s.dimension? j).isSome

end Schema

namespace Point

variable {s : Schema} {p q : Point} {d : Dimension} {i : Nat} {v : Double}
  {value : Nat → Option Double} {writes : List (Nat × Double)} {values : List Double}

/-- A point of a schema that has bytes of its own. -/
structure IsOwn (p : Point) (s : Schema) : Prop where
  schema_eq : p.schema = s
  length_data : p.data.length = s.size
  isView_eq : p.isView = false

/-- Every dimension stores the value of its slot. -/
def Stores (p : Point) (value : Nat → Option Double) : Prop :=
  ∀ i d, p.schema.dimension? i = some d → ∃ v, value i = some v ∧ d.field p.data = d.stored v

/-- There is one point that stores given values. -/
theorem Stores.eq (hb : s.Built) (hp : p.IsOwn s) (hq : q.IsOwn s) (h : p.Stores value)
    (h' : q.Stores value) : p = q := by
  obtain ⟨schema, data, isView⟩ := p
  obtain ⟨schema', data', isView'⟩ := q
  obtain ⟨rfl, hlength, rfl⟩ := hp
  obtain ⟨rfl, hlength', rfl⟩ := hq
  have hdata : data = data' := by
    refine Schema.row_ext hb hlength hlength' fun d hd => ?_
    obtain ⟨i, hi⟩ := Schema.exists_dimension?_of_mem hd
    obtain ⟨v, hv, hfield⟩ := h i d hi
    obtain ⟨v', hv', hfield'⟩ := h' i d hi
    cases hv.symm.trans hv'
    exact hfield.trans hfield'.symm
  rw [hdata]

/-! ### Values written one by one -/

/-- The point with values written into slots, one after another. -/
def setAllAt (p : Point) (writes : List (Nat × Double)) : Except Fault Point :=
  writes.foldlM (fun p w => p.setAt w.1 w.2) p

theorem isOwn_zero (s : Schema) : (zero s).IsOwn s := ⟨rfl, List.length_replicate, rfl⟩

theorem IsOwn.withValue (hb : s.Built) (hp : p.IsOwn s) (hd : d ∈ s.dimensions) (v : Double) :
    (p.withValue d v).IsOwn s :=
  ⟨hp.schema_eq, Schema.length_write hb hd hp.length_data v, rfl⟩

/-- Writing into different filled slots leaves each of them with what was written into it, and the
others as they were. -/
theorem IsOwn.exists_setAllAt (hb : s.Built) (hp : p.IsOwn s) (hnodup : (writes.map Prod.fst).Nodup)
    (hfilled : ∀ w ∈ writes, (s.dimension? w.1).isSome) :
    ∃ q, p.setAllAt writes = .ok q ∧ q.IsOwn s
      ∧ (∀ w ∈ writes, ∀ d, s.dimension? w.1 = some d → d.field q.data = d.stored w.2)
      ∧ ∀ i d, i ∉ writes.map Prod.fst → s.dimension? i = some d →
          d.field q.data = d.field p.data := by
  induction writes generalizing p with
  | nil => exact ⟨p, rfl, hp, by simp, fun _ _ _ _ => rfl⟩
  | cons w writes ih =>
    obtain ⟨hhead, hfilled⟩ := List.forall_mem_cons.1 hfilled
    rw [List.map_cons, List.nodup_cons] at hnodup
    obtain ⟨d, hd⟩ := Option.isSome_iff_exists.1 hhead
    have hmem := Schema.mem_dimensions_of_dimension? hd
    have hstep : p.setAt w.1 w.2 = .ok (p.withValue d w.2) :=
      setAt_eq_ok (by rw [hp.schema_eq, hd]) w.2
    obtain ⟨q, hrun, hq, hwritten, hother⟩ := ih (hp.withValue hb hmem w.2) hnodup.2 hfilled
    refine ⟨q, ?_, hq, ?_, ?_⟩
    · rw [setAllAt, List.foldlM_cons, hstep, ok_bind]
      exact hrun
    · refine List.forall_mem_cons.2 ⟨fun d' hd' => ?_, hwritten⟩
      -- the first slot is not written again
      cases hd.symm.trans hd'
      rw [hother w.1 d hnodup.1 hd]
      exact Schema.field_write hb hmem hp.length_data w.2
    · intro i d' hi hd'
      rw [List.map_cons, List.mem_cons, not_or] at hi
      rw [hother i d' hi.2 hd']
      exact Schema.field_write_of_ne hb (Ne.symm hi.1) hd hd' hp.length_data w.2

/-- Writing a value into every filled slot, in whatever order, makes the point that stores these
values. -/
theorem setAllAt_of_assigns (hb : s.Built) (hw : s.Assigns value writes) (hp : p.IsOwn s)
    (h : p.Stores value) : (zero s).setAllAt writes = .ok p := by
  obtain ⟨q, hrun, hq, hwritten, -⟩ := (isOwn_zero s).exists_setAllAt hb hw.nodup hw.isSome
  have hstores : q.Stores value := by
    intro i d hd
    rw [hq.schema_eq] at hd
    obtain ⟨w, hmem, rfl⟩ := List.mem_map.1
      (hw.mem i (Schema.lt_slotCount_of_dimension? hd) (Option.isSome_of_mem hd))
    exact ⟨w.2, hw.value_eq w hmem, hwritten w hmem d hd⟩
  rw [hrun, Stores.eq hb hq hp hstores h]

/-! ### Values all at once -/

/-- There is a value for each dimension. -/
theorem map_fst_zip_values (hlength : values.length = s.slotCount) :
    (s.dimensions.zip values).map Prod.fst = s.dimensions :=
  List.map_fst_zip ((Schema.length_dimensions_le s).trans_eq hlength.symm)

/-- The row of a list of values has what the dimensions store of them, in order. -/
theorem ofValues_eq_ok (hb : s.Built) (hlength : values.length = s.slotCount) :
    ofValues s values = .ok
      { schema := s, data := (s.dimensions.zip values).flatMap fun dv => dv.1.stored dv.2 } := by
  have hmap := map_fst_zip_values hlength
  have hplaced : Schema.Placed 0 ((s.dimensions.zip values).map Prod.fst) := by
    rw [hmap]
    exact hb.placed
  have hzero : s.zeroRow.length = Schema.width ((s.dimensions.zip values).map Prod.fst) := by
    rw [hmap, Schema.zeroRow, List.length_replicate, Schema.width_dimensions]
  have hrow := Schema.foldl_overwrite_fields
    (f := fun (dv : Dimension × Double) _ => dv.1.stored dv.2) hplaced
    (fun dv _ _ _ => dv.1.length_stored dv.2) List.length_nil hzero
  rw [ofValues, if_neg (not_not_intro hlength)]
  exact congrArg (fun data => Except.ok (Point.mk s data false)) hrow

/-- Of a list of values, a dimension gets the one whose number is how many slots in front of its
own are filled. -/
theorem exists_ofValues (hb : s.Built) (hlength : values.length = s.slotCount) :
    ∃ p, ofValues s values = .ok p ∧ p.IsOwn s ∧ p.Stores fun i => values[s.rank i]? := by
  have hmap := map_fst_zip_values hlength
  have hstored : ∀ dv ∈ s.dimensions.zip values, (dv.1.stored dv.2).length = dv.1.size :=
    fun dv _ => dv.1.length_stored dv.2
  refine ⟨_, ofValues_eq_ok hb hlength, ⟨rfl, ?_, rfl⟩, ?_⟩
  · rw [Schema.length_flatMap_fields_of_map hstored, hmap, Schema.width_dimensions]
  · intro i d hd
    have hplace := Schema.getElem?_dimensions_rank hd
    have hrank : s.rank i < values.length := by
      rw [hlength]
      exact Nat.lt_of_lt_of_le (List.getElem?_eq_some_iff.1 hplace).1 (Schema.length_dimensions_le s)
    have hvalue := List.getElem?_eq_getElem hrank
    have hmem : (d, values[s.rank i]) ∈ s.dimensions.zip values :=
      List.mem_of_getElem? (List.getElem?_zip_eq_some.2 ⟨hplace, hvalue⟩)
    refine ⟨_, hvalue, Schema.field_flatMap_of_map ?_ List.length_nil hstored hmem⟩
    rw [hmap]
    exact hb.placed

/-- Where no slot in front of a filled one is empty, the value of a slot is the one with its
number. -/
theorem Stores.of_rank (hs : s.IsPacked) (hp : p.IsOwn s)
    (h : p.Stores fun i => values[s.rank i]?) : p.Stores fun i => values[i]? := by
  intro i d hd
  have hslot : s.dimension? i = some d := by rw [← hp.schema_eq, hd]
  have hlt := Schema.lt_slotCount_of_dimension? hslot
  have hrank := (Schema.rank_eq_iff (Nat.le_of_lt hlt)).2 (hs i hlt (Option.isSome_of_mem hslot))
  obtain ⟨v, hv, hfield⟩ := h i d hd
  exact ⟨v, (congrArg (values[·]?) hrank).symm.trans hv, hfield⟩

/-- A point is made of as many values as there are slots. It is the point that the same values make
when they are written into the filled slots in whatever order, the first value into the first
filled slot and so on. These are the slots with the numbers of the values where no filled slot has
an empty one in front. -/
theorem ofValues_eq_setAllAt (hb : s.Built) (hlength : values.length = s.slotCount) :
    ∃ p, ofValues s values = .ok p ∧ p.IsOwn s
      ∧ p.Stores (fun i => values[s.rank i]?)
      ∧ (∀ writes, s.Assigns (fun i => values[s.rank i]?) writes →
          (zero s).setAllAt writes = .ok p)
      ∧ (s.IsPacked → p.Stores (fun i => values[i]?)
          ∧ ∀ writes, s.Assigns (fun i => values[i]?) writes →
            (zero s).setAllAt writes = .ok p) := by
  obtain ⟨p, hp, hown, hstores⟩ := exists_ofValues hb hlength
  refine ⟨p, hp, hown, hstores, fun writes hw => setAllAt_of_assigns hb hw hown hstores,
    fun hpacked => ?_⟩
  have hown' := hstores.of_rank hpacked hown
  exact ⟨hown', fun writes hw => setAllAt_of_assigns hb hw hown hown'⟩

/-- Two fields with an empty slot behind them. The values are the same when they are written from
the last slot to the first. -/
theorem ofValues_eq_setAllAt_openEnded :
    let s := (Schema.vacant 3).afterSets
      [{ name := "A", position := 0, type := .int16, offset := .one },
        { name := "B", position := 1, type := .uint8 }]
    let values : List Double := [.zero, .one, .largest]
    ∃ p, ofValues s values = .ok p ∧ p.data = [255, 255, 1]
      ∧ (zero s).setAllAt [(1, .one), (0, .zero)] = .ok p := by
  intro s values
  have hb : s.Built := (Schema.Built.vacant 3).afterSets _
  have hpacked : s.IsPacked := by
    unfold Schema.IsPacked
    decide
  have hlength : values.length = s.slotCount := rfl
  obtain ⟨p, hp, -, -, -, hslots⟩ := ofValues_eq_setAllAt hb hlength
  refine ⟨p, hp, ?_, (hslots hpacked).2 _ ⟨by decide, by decide, by decide, by decide⟩⟩
  have hdata : (ofValues s values).map Point.data = .ok [255, 255, 1] := by decide
  rw [hp] at hdata
  exact Except.ok.inj hdata

/-- Behind an empty slot, the only dimension there is gets the value of the empty slot. -/
theorem ofValues_behind_empty_slot :
    let s := (Schema.vacant 2).afterSets [{ name := "A", position := 1, type := .uint8 }]
    let values : List Double := [.one, ⟨0x4000000000000000⟩]
    values.length = s.slotCount ∧ s.Assigns (fun i => values[i]?) [(1, ⟨0x4000000000000000⟩)]
      ∧ ∃ p q, ofValues s values = .ok p ∧ (zero s).setAllAt [(1, ⟨0x4000000000000000⟩)] = .ok q
        ∧ p.data = [1] ∧ q.data = [2] :=
  ⟨rfl, ⟨by decide, by decide, by decide, by decide⟩, _, _, rfl, rfl, by decide, by decide⟩

end Point

end PointPatch
