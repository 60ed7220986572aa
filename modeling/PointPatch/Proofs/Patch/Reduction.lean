/-
PointPatch/Proofs/Patch/Reduction.lean

Keeping some dimensions of a patch.

Names are looked up as slots, and what is in these slots makes the schema of
the reduced patch; but the columns are picked out by the same numbers, though
there is one for each dimension and none for an empty slot.  So a reduced
patch is a projection (`reduce_projects`) where no slot in front of those that
are picked is empty: it has, for each name, the dimension of that name and its
column, and its rows are the fields of these dimensions, one after another.
Behind an empty slot, a name gets the column of another dimension
(`reduce_behind_empty_slot`).
-/
import PointPatch.Proofs.Patch.WellFormed
import PointPatch.Proofs.Schema.Names
import PointPatch.Proofs.Schema.Subset

namespace PointPatch

/-! ### Names of slots -/

namespace Schema

variable {s : Schema} {names : List String} {positions : List Nat}

theorem position?_congr {name name' : String} (h : Text.lowercase name = Text.lowercase name') :
    s.position? name = s.position? name' :=
  congrArg (List.lookup · s.names) h

theorem position_eq_ok_iff {name : String} {i : Nat} :
    s.position name = .ok i ↔ s.position? name = some i := by
  rw [position]
  cases s.position? name <;> simp

theorem mapM_position_eq_ok_iff :
    names.mapM s.position = .ok positions ↔
      names.Forall₂ (fun name i => s.position? name = some i) positions := by
  simp only [mapM_eq_ok_iff, position_eq_ok_iff]

/-- Where some slot cannot be found, the fault names what was looked for. -/
theorem exists_of_mapM_position_eq_error {fault : Fault} (h : names.mapM s.position = .error fault) :
    ∃ name ∈ names, s.position? name = none ∧ fault = .dimensionNotFound name := by
  obtain ⟨name, hname, hfault⟩ := exists_of_mapM_eq_error h
  rw [position] at hfault
  split at hfault
  · cases hfault
  · rename_i hnone
    cases hfault
    exact ⟨name, hname, hnone, rfl⟩

/-- What is in the slots that some names stand for. -/
theorem Built.exists_dimensions (hb : s.Built)
    (h : names.Forall₂ (fun name i => s.position? name = some i) positions) :
    ∃ ds, positions.Forall₂ (fun i d => s.dimension? i = some d) ds
      ∧ ∀ d ∈ ds, ∃ i, s.position? d.name = some i ∧ s.dimension? i = some d := by
  induction h with
  | nil => exact ⟨[], .nil, by simp⟩
  | @cons name i names positions hname _ ih =>
    obtain ⟨ds, hds, hfound⟩ := ih
    obtain ⟨d, hd, hsame⟩ := hb.exists_dimension?_of_position? hname
    refine ⟨d :: ds, .cons hd hds, List.forall_mem_cons.2 ⟨⟨i, ?_, hd⟩, hfound⟩⟩
    rw [position?_congr hsame]
    exact hname

/-- Some dimension has a name, in whatever case. -/
def HasName (s : Schema) (name : String) : Prop :=
  ∃ d ∈ s.dimensions, Text.lowercase d.name = Text.lowercase name

theorem Built.hasName_of_position? (hb : s.Built) {name : String} {i : Nat}
    (h : s.position? name = some i) : s.HasName name := by
  obtain ⟨d, hd, hsame⟩ := hb.exists_dimension?_of_position? h
  exact ⟨d, mem_dimensions_of_dimension? hd, hsame⟩

/-- The fields that some names stand for, one after another. -/
def fieldsNamed (s : Schema) (names : List String) (row : List UInt8) : List UInt8 :=
  names.flatMap fun name => (s.dimensionNamed? name).elim [] fun d => d.field row

/-- The names of dimensions are found, in slots that no empty slot is in front of. -/
structure Resolves (s : Schema) (names : List String) : Prop where
  found : ∀ name ∈ names, s.HasName name → ∃ i, s.position? name = some i
  packed : ∀ name ∈ names, ∀ i, s.position? name = some i → ∀ j < i, (s.dimension? j).isSome

theorem Resolves.mono {names' : List String} (h : s.Resolves names) (hnames : names' ⊆ names) :
    s.Resolves names' where
  found := fun name hname => h.found name (hnames hname)
  packed := fun name hname => h.packed name (hnames hname)

end Schema

/-! ### Summaries -/

namespace Summary

variable {m : Summary} {s t : Schema}

/-- The three points of a summary are points of a schema. -/
structure IsOf (m : Summary) (s : Schema) : Prop where
  min_eq : m.min.schema = s
  max_eq : m.max.schema = s
  avg_eq : m.avg.schema = s

theorem exists_carryOver {p : Point} (h : ∀ d ∈ t.dimensions, ∃ i source,
      p.schema.position? d.name = some i ∧ p.schema.dimension? i = some source) :
    ∃ q, carryOver t p = .ok q := by
  have hstep : ∀ d ∈ t.dimensions, ∀ row, ∃ row', (do
      let source ← p.schema.dimensionNamed d.name
      return overwrite d.byteOffset (source.field p.data) row : Except Fault (List UInt8))
        = .ok row' := by
    intro d hd row
    obtain ⟨i, source, hposition, hsource⟩ := h d hd
    rw [Schema.dimensionNamed_eq_ok hposition hsource]
    exact ⟨_, rfl⟩
  obtain ⟨data, hdata⟩ := exists_foldlM hstep t.zeroRow
  exact ⟨{ schema := t, data }, bind_eq_ok_iff.2 ⟨data, hdata, rfl⟩⟩

/-- A summary, if there is one, can be restricted to dimensions whose names its schema knows. -/
theorem exists_restrict {summary : Option Summary} (hm : ∀ m, summary = some m → m.IsOf s)
    (h : ∀ d ∈ t.dimensions, ∃ i source,
      s.position? d.name = some i ∧ s.dimension? i = some source) :
    ∃ summary', summary.mapM (restrict · t) = .ok summary' := by
  rcases summary with - | m
  · exact ⟨none, rfl⟩
  obtain ⟨hmin, hmax, havg⟩ := hm m rfl
  obtain ⟨min, hmin⟩ := exists_carryOver (p := m.min) (hmin ▸ h)
  obtain ⟨max, hmax⟩ := exists_carryOver (p := m.max) (hmax ▸ h)
  obtain ⟨avg, havg⟩ := exists_carryOver (p := m.avg) (havg ▸ h)
  have hrestrict : m.restrict t = .ok { min, max, avg } := bind_eq_ok_iff.2 ⟨min, hmin,
    bind_eq_ok_iff.2 ⟨max, hmax, bind_eq_ok_iff.2 ⟨avg, havg, rfl⟩⟩⟩
  exact ⟨some { min, max, avg }, bind_eq_ok_iff.2 ⟨_, hrestrict, rfl⟩⟩

theorem schema_of_carryOver {p q : Point} (h : carryOver t p = .ok q) : q.schema = t := by
  obtain ⟨data, -, h⟩ := bind_eq_ok_iff.1 h
  cases h
  rfl

/-- What is left of a summary is in the schema that it has been restricted to. -/
theorem isOf_of_mapM_restrict {summary summary' : Option Summary}
    (h : summary.mapM (restrict · t) = .ok summary') : ∀ m', summary' = some m' → m'.IsOf t := by
  rintro m' rfl
  rcases summary with - | m
  · cases h
  obtain ⟨m'', hrestrict, h⟩ := bind_eq_ok_iff.1 h
  cases h
  obtain ⟨min, hmin, h⟩ := bind_eq_ok_iff.1 hrestrict
  obtain ⟨max, hmax, h⟩ := bind_eq_ok_iff.1 h
  obtain ⟨avg, havg, h⟩ := bind_eq_ok_iff.1 h
  cases h
  exact ⟨schema_of_carryOver hmin, schema_of_carryOver hmax, schema_of_carryOver havg⟩

end Summary

/-! ### Columns -/

namespace ColumnPatch

variable {p q : ColumnPatch} {schema : Schema} {positions : List Nat} {names : List String}

theorem subset_eq_ok_iff :
    p.subset schema positions = .ok q ↔ ∃ columns summary,
      positions.Forall₂ (fun i c => p.columns[i]? = some c) columns
        ∧ p.summary.mapM (Summary.restrict · schema) = .ok summary
        ∧ q = { schema, count := p.count, bounds := p.bounds, summary, columns } := by
  rw [subset, bind_eq_ok_iff]
  constructor
  · rintro ⟨columns, hcolumns, h⟩
    obtain ⟨summary, hsummary, h⟩ := bind_eq_ok_iff.1 h
    cases h
    refine ⟨columns, summary, (mapM_eq_ok_iff.1 hcolumns).imp fun i c hc => ?_, hsummary, rfl⟩
    split at hc
    · rename_i hi
      cases hc
      exact hi
    · cases hc
  · rintro ⟨columns, summary, hcolumns, hsummary, rfl⟩
    refine ⟨columns, mapM_eq_ok_iff.2 (hcolumns.imp fun i c hc => ?_),
      bind_eq_ok_iff.2 ⟨summary, hsummary, rfl⟩⟩
    rw [hc]

/-- Where no slot in front is empty, the column of a dimension has the number of its slot. -/
theorem exists_column (hlength : p.columns.length = p.schema.dimensions.length) {i : Nat}
    {d : Dimension} (hd : p.schema.dimension? i = some d)
    (hfront : ∀ j < i, (p.schema.dimension? j).isSome) :
    ∃ c, p.columns[i]? = some c ∧ (d, c) ∈ p.schema.dimensions.zip p.columns := by
  have hplace := Schema.getElem?_dimensions hd hfront
  have hi : i < p.columns.length := by
    rw [hlength]
    exact (List.getElem?_eq_some_iff.1 hplace).1
  have hc := List.getElem?_eq_getElem hi
  exact ⟨_, hc, List.mem_of_getElem? (List.getElem?_zip_eq_some.2 ⟨hplace, hc⟩)⟩

theorem exists_columns (hlength : p.columns.length = p.schema.dimensions.length)
    {ds : List Dimension} (hds : positions.Forall₂ (fun i d => p.schema.dimension? i = some d) ds)
    (hpacked : ∀ i ∈ positions, ∀ j < i, (p.schema.dimension? j).isSome) :
    ∃ columns, positions.Forall₂ (fun i c => p.columns[i]? = some c) columns
      ∧ ds.Forall₂ (fun d c => (d, c) ∈ p.schema.dimensions.zip p.columns) columns :=
  forall₂_exists_iff.1 <| ((List.forall₂_and_left _ _).2 ⟨hpacked, hds⟩).flip.imp
    fun _ _ h => exists_column hlength h.2 h.1

/-- What the column of a dimension decodes to stands for the dimension too. -/
theorem Holds.exists_raw {z : ColumnCodec} {raws : List Column} (h : p.Holds z raws)
    {d : Dimension} {c : Column} (hc : (d, c) ∈ p.schema.dimensions.zip p.columns) :
    ∃ raw, c.decode z = .ok raw ∧ (d, raw) ∈ p.schema.dimensions.zip raws := by
  obtain ⟨i, hi⟩ := List.getElem?_of_mem hc
  obtain ⟨hd, hc⟩ := List.getElem?_zip_eq_some.1 hi
  obtain ⟨raw, hraw, hdecode⟩ := exists_getElem? h.decode hc
  exact ⟨raw, hdecode, List.mem_of_getElem? (List.getElem?_zip_eq_some.2 ⟨hd, hraw⟩)⟩

/-- A patch has for each of some names the dimension of another patch that the name stands for,
with its column, and nothing else. -/
structure IsProjection (p : ColumnPatch) (names : List String) (q : ColumnPatch) : Prop where
  count_eq : q.count = p.count
  bounds_eq : q.bounds = p.bounds
  slotCount_eq : q.schema.slotCount = names.length
  length_columns : q.columns.length = names.length
  column_eq : ∀ j name, names[j]? = some name → ∃ d c byteOffset,
    Text.lowercase d.name = Text.lowercase name ∧ p.schema.dimensionNamed name = .ok d
      ∧ (d, c) ∈ p.schema.dimensions.zip p.columns
      ∧ q.schema.dimension? j = some { d with position := j, byteOffset }
      ∧ q.columns[j]? = some c
  rows_eq : ∀ e, (Patch.columns p).WellFormed e → ∃ raw raw',
    (Patch.columns p).toRows e = .ok raw ∧ (Patch.columns q).toRows e = .ok raw'
      ∧ raw'.rows = (List.range p.count).flatMap fun i =>
          p.schema.fieldsNamed names (slice (i * p.schema.size) p.schema.size raw.rows)

/-- A patch has the dimensions in some slots of another patch, with their columns. -/
structure IsPicked (p : ColumnPatch) (positions : List Nat) (ds : List Dimension)
    (q : ColumnPatch) : Prop where
  built : q.schema.Built
  slots_eq : q.schema.slots = Schema.layOut 0 (p.schema.picks 0 positions)
  dimension_eq : positions.Forall₂ (fun i d => p.schema.dimension? i = some d) ds
  column_mem : ds.Forall₂ (fun d c => (d, c) ∈ p.schema.dimensions.zip p.columns) q.columns
  count_eq : q.count = p.count
  bounds_eq : q.bounds = p.bounds

/-- Where no slot in front is empty, a subset has the columns of its dimensions. -/
theorem isPicked_of_subset (hlength : p.columns.length = p.schema.dimensions.length)
    {ds : List Dimension} (hds : positions.Forall₂ (fun i d => p.schema.dimension? i = some d) ds)
    (hpacked : ∀ i ∈ positions, ∀ j < i, (p.schema.dimension? j).isSome)
    (hschema : p.schema.subset positions = .ok schema) (hq : p.subset schema positions = .ok q) :
    p.IsPicked positions ds q := by
  obtain ⟨columns, summary, hpicked, -, rfl⟩ := subset_eq_ok_iff.1 hq
  obtain ⟨t, ht, hslots, -⟩ := Schema.exists_filled_subset hds
  obtain rfl : schema = t := Except.ok.inj (hschema.symm.trans ht)
  obtain ⟨columns', hpicked', hmem⟩ := exists_columns hlength hds hpacked
  obtain rfl : columns = columns' :=
    List.right_unique_forall₂' (fun _ _ _ h h' => Option.some.inj (h.symm.trans h')) hpicked hpicked'
  exact ⟨Schema.Built.subset hschema, hslots, hds, hmem, rfl, rfl⟩

/-- The columns that have been picked out hold what their dimensions do. -/
theorem IsPicked.exists_holds {z : ColumnCodec} {raws : List Column} {ds : List Dimension}
    (hq : p.IsPicked positions ds q) (h : p.Holds z raws) :
    ∃ raws', q.Holds z raws'
      ∧ ds.Forall₂ (fun d raw => (d, raw) ∈ p.schema.dimensions.zip raws) raws' := by
  obtain ⟨raws', hdecode, hmem⟩ := forall₂_exists_iff.1 (hq.column_mem.imp fun d c => h.exists_raw)
  have hds := Schema.forall₂_dimensions_of_picks hq.slots_eq hq.dimension_eq
  refine ⟨raws', ⟨hdecode, forall₂_comp ?_ hds hmem⟩, hmem⟩
  rintro _ d raw ⟨position, byteOffset, rfl⟩ hraw
  have hfits : Fits p.count d raw := List.forall₂_zip h.fits hraw
  rw [hq.count_eq]
  exact hfits

/-- The rows of the columns that some names stand for are the fields of these names. -/
theorem Holds.wovenRows_named {z : ColumnCodec} {raws raws' : List Column} (hb : p.schema.Built)
    (h : p.Holds z raws) {ds : List Dimension}
    (hnamed : names.Forall₂ (fun name d => p.schema.dimensionNamed? name = some d) ds)
    (hraws : ds.Forall₂ (fun d raw => (d, raw) ∈ p.schema.dimensions.zip raws) raws') :
    wovenRows p.count raws' = (List.range p.count).flatMap fun i => p.schema.fieldsNamed names
      (slice (i * p.schema.size) p.schema.size (wovenRows p.count raws)) := by
  refine List.flatMap_congr fun i hi => (flatMap_congr_forall₂ ?_).symm
  refine forall₂_comp (fun name d raw hname hraw => ?_) hnamed hraws
  rw [hname]
  exact field_slice_wovenRows hb h.fits hraw (List.mem_range.1 hi)

/-- Picking out what some names stand for is a projection. -/
theorem IsPicked.isProjection {ds : List Dimension} (hb : p.schema.Built)
    (hq : p.IsPicked positions ds q)
    (hpositions : names.Forall₂ (fun name i => p.schema.position? name = some i) positions) :
    p.IsProjection names q where
  count_eq := hq.count_eq
  bounds_eq := hq.bounds_eq
  slotCount_eq := (Schema.slotCount_of_picks hq.slots_eq).trans hpositions.length_eq.symm
  length_columns := by
    rw [← hq.column_mem.length_eq, ← hq.dimension_eq.length_eq, hpositions.length_eq]
  column_eq := by
    intro j name hname
    obtain ⟨i, hi, hposition⟩ := exists_getElem? hpositions hname
    obtain ⟨d, hd, hslot⟩ := exists_getElem? hq.dimension_eq hi
    obtain ⟨c, hc, hmem⟩ := exists_getElem? hq.column_mem hd
    obtain ⟨byteOffset, hplaced⟩ := Schema.dimension?_of_picks hq.slots_eq hi
    obtain ⟨d', hd', hsame⟩ := hb.exists_dimension?_of_position? hposition
    obtain rfl := Option.some.inj (hslot.symm.trans hd')
    rw [hslot, Option.map_some] at hplaced
    exact ⟨d, c, byteOffset, hsame, Schema.dimensionNamed_eq_ok hposition hslot, hmem, hplaced, hc⟩
  rows_eq := by
    intro e hwell
    obtain ⟨raws, hholds⟩ := Patch.wellFormed_columns_iff.1 hwell
    obtain ⟨raws', hholds', hraws⟩ := hq.exists_holds hholds
    refine ⟨_, _, hholds.toRows hb, hholds'.toRows hq.built, ?_⟩
    rw [hq.count_eq]
    refine hholds.wovenRows_named hb ?_ hraws
    refine forall₂_comp (fun name i d hname hd => ?_) hpositions hq.dimension_eq
    rw [Schema.dimensionNamed?, hname]
    exact hd

end ColumnPatch

namespace Patch

variable {p q : Patch} {names : List String}

/-- A patch is reduced by picking the slots and the columns with the numbers that the names stand
for. -/
theorem reduce_eq_ok_iff :
    p.reduce names = .ok q ↔ ∃ c positions schema c', p = .columns c
      ∧ names.Forall₂ (fun name i => c.schema.position? name = some i) positions
      ∧ c.schema.subset positions = .ok schema ∧ c.subset schema positions = .ok c'
      ∧ q = .columns c' := by
  rw [reduce, bind_eq_ok_iff]
  simp only [Schema.mapM_position_eq_ok_iff]
  constructor
  · rintro ⟨positions, hpositions, h⟩
    cases p with
    | rows p => cases h
    | blob p => cases h
    | columns c =>
      obtain ⟨schema, hschema, h⟩ := bind_eq_ok_iff.1 h
      obtain ⟨c', hc', h⟩ := bind_eq_ok_iff.1 h
      cases h
      exact ⟨c, positions, schema, c', rfl, hpositions, hschema, hc', rfl⟩
  · rintro ⟨c, positions, schema, c', rfl, hpositions, hschema, hc', rfl⟩
    exact ⟨positions, hpositions, bind_eq_ok_iff.2 ⟨schema, hschema, bind_eq_ok_iff.2 ⟨c', hc', rfl⟩⟩⟩

variable {c : ColumnPatch}

/-- Where all names are found, and no slot in front of theirs is empty, there is a projection. -/
theorem exists_reduce (hb : c.schema.Built)
    (hcolumns : c.columns.length = c.schema.dimensions.length)
    (hsummary : ∀ m, c.summary = some m → m.IsOf c.schema) {positions : List Nat}
    (hpositions : names.Forall₂ (fun name i => c.schema.position? name = some i) positions)
    (hpacked : ∀ i ∈ positions, ∀ j < i, (c.schema.dimension? j).isSome) :
    ∃ q, (Patch.columns c).reduce names = .ok (.columns q) ∧ c.IsProjection names q := by
  obtain ⟨ds, hds, hfound⟩ := hb.exists_dimensions hpositions
  -- the schema of the slots, the columns of the same numbers, and what is left of the summary
  obtain ⟨t, hsubset, hslots, -⟩ := Schema.exists_filled_subset hds
  obtain ⟨columns, hpicked, -⟩ := ColumnPatch.exists_columns hcolumns hds hpacked
  obtain ⟨summary, hm⟩ := Summary.exists_restrict (t := t) hsummary fun d hd => by
    obtain ⟨j, hj⟩ := List.getElem?_of_mem hd
    obtain ⟨d', hd', position, byteOffset, rfl⟩ :=
      exists_getElem? (Schema.forall₂_dimensions_of_picks hslots hds) hj
    exact (hfound d' (List.mem_of_getElem? hd')).imp fun i h => ⟨d', h⟩
  have hq := ColumnPatch.subset_eq_ok_iff.2 ⟨columns, summary, hpicked, hm, rfl⟩
  exact ⟨_, reduce_eq_ok_iff.2 ⟨c, positions, t, _, rfl, hpositions, hsubset, hq, rfl⟩,
    (ColumnPatch.isPicked_of_subset hcolumns hds hpacked hsubset hq).isProjection hb hpositions⟩

/-- A name that is in no dimension is what a reduction fails by, and nothing else is; else there
is a projection.  This holds if the index knows the names of dimensions and no slot in front of
theirs is empty. -/
theorem reduce_projects (hb : c.schema.Built)
    (hcolumns : c.columns.length = c.schema.dimensions.length)
    (hsummary : ∀ m, c.summary = some m → m.IsOf c.schema) (hnames : c.schema.Resolves names) :
    ((∃ name, (Patch.columns c).reduce names = .error (.dimensionNotFound name))
        ↔ ∃ name ∈ names, ¬ c.schema.HasName name)
      ∧ ((∀ name ∈ names, c.schema.HasName name) →
          ∃ q, (Patch.columns c).reduce names = .ok (.columns q) ∧ c.IsProjection names q) := by
  have hall : (∀ name ∈ names, c.schema.HasName name) →
      ∃ q, (Patch.columns c).reduce names = .ok (.columns q) ∧ c.IsProjection names q := by
    intro hhas
    obtain ⟨positions, hpositions⟩ := exists_forall₂ fun name hname =>
      hnames.found name hname (hhas name hname)
    refine exists_reduce hb hcolumns hsummary hpositions fun i hi => ?_
    obtain ⟨name, hname, hposition⟩ := exists_of_mem_right hpositions hi
    exact hnames.packed name hname i hposition
  refine ⟨⟨?_, ?_⟩, hall⟩
  · rintro ⟨name, hfault⟩
    by_contra hnone
    have hhas : ∀ name ∈ names, c.schema.HasName name := fun name hname =>
      not_not.1 fun h => hnone ⟨name, hname, h⟩
    obtain ⟨q, hq, -⟩ := hall hhas
    rw [hfault] at hq
    cases hq
  · rintro ⟨name, hname, hmissing⟩
    rcases hpositions : names.mapM c.schema.position with fault | positions
    · obtain ⟨other, -, -, rfl⟩ := Schema.exists_of_mapM_position_eq_error hpositions
      exact ⟨other, by rw [reduce, Patch.schema, header, hpositions]; rfl⟩
    · -- all names stand for slots, and so there are dimensions of them
      obtain ⟨j, hj⟩ := List.getElem?_of_mem hname
      obtain ⟨i, -, hi⟩ := exists_getElem? (Schema.mapM_position_eq_ok_iff.1 hpositions) hj
      exact absurd (hb.hasName_of_position? hi) hmissing

/-! ### Empty slots -/

/-- Two points of two dimensions, with a slot behind these that is empty. -/
def openEnded : ColumnPatch :=
  let schema := (Schema.vacant 3).afterSets
    [{ name := "A", position := 0, type := .uint8 }, { name := "B", position := 1, type := .uint16 }]
  { schema, count := 2
    summary := some
      { min := { schema, data := [1, 3, 0] }, max := { schema, data := [2, 4, 0] }
        avg := { schema, data := [1, 3, 0] } }
    columns := [⟨.uint8, 2, .raw, [1, 2]⟩, ⟨.uint16, 2, .rle, [1, 3, 0, 1, 4, 0]⟩] }

theorem openEnded_resolves : openEnded.schema.Resolves ["b", "A", "c"] where
  found := by
    have hb : openEnded.schema.position? "b" = some 1 := by decide
    have ha : openEnded.schema.position? "A" = some 0 := by decide
    have hc : ¬ ∃ d ∈ openEnded.schema.dimensions, Text.lowercase d.name = Text.lowercase "c" := by
      decide
    simp only [List.forall_mem_cons]
    exact ⟨fun _ => ⟨1, hb⟩, fun _ => ⟨0, ha⟩, fun h => absurd h hc, by simp⟩
  packed := by
    intro name _ i hi j hj
    obtain ⟨d, hd, -⟩ :=
      ((Schema.Built.vacant 3).afterSets _).exists_dimension?_of_position? hi
    have hfilled : ∀ i < 3, (openEnded.schema.dimension? i).isSome → ∀ j < i,
        (openEnded.schema.dimension? j).isSome := by
      decide
    exact hfilled i (Schema.lt_slotCount_of_dimension? hd) (by rw [openEnded, hd]; rfl) j hj

/-- Two dimensions in the other order, one of them twice, are a projection; a third name is what a
reduction fails by. -/
theorem reduce_openEnded :
    (∃ q, (Patch.columns openEnded).reduce ["b", "A", "b"] = .ok (.columns q)
        ∧ openEnded.IsProjection ["b", "A", "b"] q)
      ∧ ∃ name, (Patch.columns openEnded).reduce ["A", "c"] = .error (.dimensionNotFound name) := by
  have hb : openEnded.schema.Built := (Schema.Built.vacant 3).afterSets _
  have hsummary : ∀ m, openEnded.summary = some m → m.IsOf openEnded.schema := by
    rintro m ⟨⟩
    exact ⟨rfl, rfl, rfl⟩
  have hturned : openEnded.schema.Resolves ["b", "A", "b"] := openEnded_resolves.mono (by decide)
  have hmissing : openEnded.schema.Resolves ["A", "c"] := openEnded_resolves.mono (by decide)
  obtain ⟨-, hprojection⟩ := reduce_projects hb (by decide) hsummary hturned
  obtain ⟨hfault, -⟩ := reduce_projects hb (by decide) hsummary hmissing
  exact ⟨hprojection (by unfold Schema.HasName; decide),
    hfault.2 (by unfold Schema.HasName; decide)⟩

/-- A point of two dimensions, with a slot in front of these that is empty. -/
def openFront : ColumnPatch where
  schema := (Schema.vacant 3).afterSets
    [{ name := "A", position := 1, type := .uint8 }, { name := "B", position := 2, type := .uint8 }]
  count := 1
  columns := [⟨.uint8, 1, .raw, [1]⟩, ⟨.uint8, 1, .raw, [2]⟩]

/-- Behind an empty slot, the first dimension gets the column of the second. -/
theorem reduce_behind_empty_slot :
    ∃ q, (Patch.columns openFront).reduce ["A"] = .ok (.columns q)
      ∧ openFront.schema.HasName "A" ∧ q.columns = [⟨.uint8, 1, .raw, [2]⟩]
      ∧ ¬ openFront.IsProjection ["A"] q := by
  refine ⟨_, rfl, by unfold Schema.HasName; decide, rfl, fun h => ?_⟩
  obtain ⟨d, c, byteOffset, hname, -, hzip, -, hc⟩ := h.column_eq 0 "A" rfl
  cases hc
  -- the column belongs to one dimension only, which has another name
  have hother : ∀ x ∈ openFront.schema.dimensions.zip openFront.columns,
      x.2 = ⟨.uint8, 1, .raw, [2]⟩ → Text.lowercase x.1.name ≠ Text.lowercase "A" := by
    decide
  exact hother (d, _) hzip rfl hname

end Patch

end PointPatch
