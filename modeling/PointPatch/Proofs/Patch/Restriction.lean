/-
PointPatch/Proofs/Patch/Restriction.lean

What is left of a summary when dimensions are left out.

A summary is not computed anew then: the bytes of each dimension that stays
are carried over from the field of the same name.  The outcome is the same
(`restrict_compute`).  A summary is computed dimension by dimension, from the
values that this dimension has in all rows (`Schema.field_rowOf`), so what it
has in the field of a dimension depends on the column of this one alone.

Carrying bytes over twice is carrying them over once (`restrict_restrict`),
because a name stands for the same field on the way.
-/
import PointPatch.Proofs.Patch.Reduction
import PointPatch.Proofs.Schema.Fields

namespace PointPatch

/-! ### Names of fields -/

namespace Schema

variable {s t : Schema} {d : Dimension}

/-- The bytes of the dimension that a name stands for; none where it stands for no dimension. -/
def fieldNamed (s : Schema) (name : String) (row : List UInt8) : List UInt8 :=
  (s.dimensionNamed? name).elim [] fun d => d.field row

theorem fieldNamed_eq {name : String} (h : s.dimensionNamed? name = some d) (row : List UInt8) :
    s.fieldNamed name row = d.field row := by
  rw [fieldNamed, h]
  rfl

theorem mem_of_dimensionNamed? {name : String} (h : s.dimensionNamed? name = some d) :
    d ∈ s.dimensions := by
  obtain ⟨i, -, hd⟩ := Option.bind_eq_some_iff.1 h
  exact mem_dimensions_of_dimension? hd

/-- What a name stands for has this name, in some case. -/
theorem Built.name_of_dimensionNamed? (hb : s.Built) {name : String}
    (h : s.dimensionNamed? name = some d) : Text.lowercase d.name = Text.lowercase name := by
  obtain ⟨i, hi, hd⟩ := Option.bind_eq_some_iff.1 h
  obtain ⟨d', hd', hsame⟩ := hb.exists_dimension?_of_position? hi
  cases hd.symm.trans hd'
  exact hsame

/-- Each dimension of a schema has a source in another one, the dimension of the same name there,
of which it is a copy in a place of its own. -/
def DrawsFrom (t s : Schema) : Prop :=
  ∀ d' ∈ t.dimensions, ∃ d position byteOffset,
    s.dimensionNamed? d'.name = some d ∧ d' = { d with position, byteOffset }

theorem DrawsFrom.length_fieldNamed (h : t.DrawsFrom s) (hs : s.Built) {row : List UInt8}
    (hrow : row.length = s.size) : ∀ d' ∈ t.dimensions, (s.fieldNamed d'.name row).length = d'.size := by
  intro d' hd'
  obtain ⟨d, position, byteOffset, hd, rfl⟩ := h d' hd'
  rw [fieldNamed_eq hd]
  exact length_field hs hrow (mem_of_dimensionNamed? hd)

/-- What a name stands for has a source of this name, too. -/
theorem DrawsFrom.exists_source (h : t.DrawsFrom s) (ht : t.Built) {name : String}
    {d' : Dimension} (hname : t.dimensionNamed? name = some d') :
    ∃ d, s.dimensionNamed? name = some d ∧ s.dimensionNamed? d'.name = some d := by
  obtain ⟨d, -, -, hd, -⟩ := h d' (mem_of_dimensionNamed? hname)
  refine ⟨d, ?_, hd⟩
  rw [dimensionNamed?, ← position?_congr (ht.name_of_dimensionNamed? hname)]
  exact hd

end Schema

/-! ### Points carried over -/

namespace Summary

variable {s t u : Schema} {p q : Point} {m m' : Summary}

/-- Bytes are carried over to the row of the fields that the names stand for. -/
theorem carryOver_eq_ok (ht : t.Built) (hp : p.schema.Built)
    (hrow : p.data.length = p.schema.size) (hdraws : t.DrawsFrom p.schema) :
    carryOver t p = .ok
      { schema := t, data := t.dimensions.flatMap fun d => p.schema.fieldNamed d.name p.data } := by
  have hstep : ∀ d ∈ t.dimensions, ∀ row : List UInt8, (do
      let source ← p.schema.dimensionNamed d.name
      return overwrite d.byteOffset (source.field p.data) row : Except Fault (List UInt8))
        = .ok (overwrite d.byteOffset (p.schema.fieldNamed d.name p.data) row) := by
    intro d hd row
    obtain ⟨source, -, -, hsource, -⟩ := hdraws d hd
    rw [Schema.fieldNamed_eq hsource, Schema.dimensionNamed, hsource]
    rfl
  rw [carryOver, foldlM_eq_ok_foldl hstep, ok_bind,
    Schema.foldl_overwrite_zeroRow ht (hdraws.length_fieldNamed hp hrow)]
  rfl

/-- Bytes that are carried over from one schema to a second and on to a third might as well have
been carried over to the third at once. -/
theorem carryOver_carryOver (ht : t.Built) (hu : u.Built) (hp : p.schema.Built)
    (hrow : p.data.length = p.schema.size) (hts : t.DrawsFrom p.schema) (hus : u.DrawsFrom p.schema)
    (hut : u.DrawsFrom t) (hq : carryOver t p = .ok q) : carryOver u q = carryOver u p := by
  cases hq.symm.trans (carryOver_eq_ok ht hp hrow hts)
  have hlength := hts.length_fieldNamed hp hrow
  have hrow' : (t.dimensions.flatMap fun d => p.schema.fieldNamed d.name p.data).length = t.size := by
    rw [Schema.length_flatMap_fields hlength, Schema.width_dimensions]
  rw [carryOver_eq_ok hu hp hrow hus, carryOver_eq_ok hu ht hrow' hut]
  congr 2
  apply List.flatMap_congr
  intro d hd
  -- the field on the way has the bytes of the source that both names stand for
  obtain ⟨d', -, -, hd', -⟩ := hut d hd
  obtain ⟨source, hsource, hsource'⟩ := hts.exists_source ht hd'
  have hfield := Schema.field_flatMap ht.placed List.length_nil hlength
    (Schema.mem_of_dimensionNamed? hd')
  rw [Schema.fieldNamed_eq hd', Schema.fieldNamed_eq hsource]
  exact hfield.trans (Schema.fieldNamed_eq hsource' p.data)

/-! ### Summaries of fewer dimensions -/

/-- Restricting a summary is carrying over the points of all statistics. -/
theorem restrict_eq_ok_iff :
    m.restrict t = .ok m' ↔ ∀ statistic, carryOver t (m.get statistic) = .ok (m'.get statistic) := by
  rw [restrict]
  constructor
  · intro h
    obtain ⟨min, hmin, h⟩ := bind_eq_ok_iff.1 h
    obtain ⟨max, hmax, h⟩ := bind_eq_ok_iff.1 h
    obtain ⟨avg, havg, h⟩ := bind_eq_ok_iff.1 h
    cases h
    rintro (- | - | -)
    · exact hmin
    · exact hmax
    · exact havg
  · intro h
    exact bind_eq_ok_iff.2 ⟨_, h .min, bind_eq_ok_iff.2 ⟨_, h .max,
      bind_eq_ok_iff.2 ⟨_, h .avg, rfl⟩⟩⟩

/-- The points of a summary are whole points of a schema. -/
def IsWhole (m : Summary) (s : Schema) : Prop :=
  ∀ statistic, (m.get statistic).schema = s ∧ (m.get statistic).data.length = s.size

theorem isWhole_of_compute {rows : List UInt8} (hs : s.Built) (h : compute s rows = some m) :
    m.IsWhole s := by
  rw [compute] at h
  split at h
  · cases h
  · cases h
    rintro (- | - | -)
    · exact ⟨rfl, Schema.length_rowOf hs _⟩
    · exact ⟨rfl, Schema.length_rowOf hs _⟩
    · exact ⟨rfl, Schema.length_rowOf hs _⟩

/-- What is left of a summary once dimensions have been left out twice is what is left once they
have been left out at once. -/
theorem restrict_restrict (hs : s.Built) (ht : t.Built) (hu : u.Built) (hm : m.IsWhole s)
    (hts : t.DrawsFrom s) (hus : u.DrawsFrom s) (hut : u.DrawsFrom t) (h : m.restrict t = .ok m') :
    m'.restrict u = m.restrict u := by
  have hpoint : ∀ statistic, carryOver u (m'.get statistic) = carryOver u (m.get statistic) := by
    intro statistic
    obtain ⟨hschema, hrow⟩ := hm statistic
    subst hschema
    exact carryOver_carryOver ht hu hs hrow hts hus hut (restrict_eq_ok_iff.1 h statistic)
  rw [restrict, restrict]
  have hmin := hpoint .min
  have hmax := hpoint .max
  have havg := hpoint .avg
  simp only [get] at hmin hmax havg
  rw [hmin, hmax, havg]

theorem mapM_restrict_restrict {summary summary' : Option Summary} (hs : s.Built) (ht : t.Built)
    (hu : u.Built) (hm : ∀ m, summary = some m → m.IsWhole s) (hts : t.DrawsFrom s)
    (hus : u.DrawsFrom s) (hut : u.DrawsFrom t) (h : summary.mapM (restrict · t) = .ok summary') :
    summary'.mapM (restrict · u) = summary.mapM (restrict · u) := by
  rcases summary with - | m
  · cases h
    rfl
  · obtain ⟨m', hrestrict, h⟩ := bind_eq_ok_iff.1 h
    cases h
    rw [Option.mapM_some, Option.mapM_some,
      restrict_restrict hs ht hu (hm m rfl) hts hus hut hrestrict]

/-! ### Summaries computed anew -/

/-- Rows have in each field what other rows have in the field of its source. -/
def SameFields (s t : Schema) (count : Nat) (rows rows' : List UInt8) : Prop :=
  ∀ d' ∈ t.dimensions, ∀ d, s.dimensionNamed? d'.name = some d → ∀ i < count,
    d'.field (slice (i * t.size) t.size rows') = d.field (slice (i * s.size) s.size rows)

variable {count : Nat} {rows rows' : List UInt8}

theorem chunks_eq_map_range {size : Nat} (hsize : 0 < size) (hrows : rows.length = size * count) :
    chunks size rows = (List.range count).map fun i => slice (i * size) size rows := by
  rw [chunks_eq_map_slice, hrows, Nat.mul_div_cancel_left _ hsize]

/-- A point made of the values of all dimensions has, for those that stay, what is made of their
values. -/
theorem carryOver_collect (hs : s.Built) (ht : t.Built) (hsize : 0 < s.size) (hsize' : 0 < t.size)
    (hrows : rows.length = s.size * count) (hrows' : rows'.length = t.size * count)
    (hdraws : t.DrawsFrom s) (hfields : SameFields s t count rows rows') (f : List Double → Double) :
    carryOver t (collect s (chunks s.size rows) f) = .ok (collect t (chunks t.size rows') f) := by
  have hrow : (collect s (chunks s.size rows) f).data.length = s.size := Schema.length_rowOf hs _
  rw [carryOver_eq_ok ht hs hrow hdraws]
  show Except.ok (Point.mk t _ false) = Except.ok (Point.mk t (t.rowOf _) false)
  rw [Schema.rowOf_eq ht]
  congr 2
  apply List.flatMap_congr
  intro d' hd'
  obtain ⟨d, position, byteOffset, hd, hcopy⟩ := hdraws d' hd'
  have hvalues : (chunks s.size rows).map d.read = (chunks t.size rows').map d'.read := by
    rw [chunks_eq_map_range hsize hrows, chunks_eq_map_range hsize' hrows', List.map_map,
      List.map_map]
    apply List.map_congr_left
    intro i hi
    have hfield := hfields d' hd' d hd i (List.mem_range.1 hi)
    show d.read _ = d'.read _
    rw [Dimension.read, Dimension.read, ← hfield, hcopy]
  show s.fieldNamed d'.name (s.rowOf _) = _
  rw [Schema.fieldNamed_eq hd, Schema.field_rowOf hs _ (Schema.mem_of_dimensionNamed? hd), hvalues,
    hcopy]
  rfl

/-- What is left of the summary of some rows is the summary of what is left of the rows. -/
theorem restrict_compute (hs : s.Built) (ht : t.Built) (hsize : 0 < s.size) (hsize' : 0 < t.size)
    (hrows : rows.length = s.size * count) (hrows' : rows'.length = t.size * count)
    (hdraws : t.DrawsFrom s) (hfields : SameFields s t count rows rows') :
    (compute s rows).mapM (restrict · t) = .ok (compute t rows') := by
  have hnone : ∀ {size : Nat}, 0 < size → (size * count < size ↔ count = 0) := by
    intro size hsize
    rw [← Nat.mul_one size, Nat.mul_assoc, Nat.one_mul, Nat.mul_lt_mul_left hsize, Nat.lt_one_iff]
  rw [compute, compute, hrows, hrows']
  by_cases hcount : count = 0
  · rw [if_pos (.inr ((hnone hsize).2 hcount)), if_pos (.inr ((hnone hsize').2 hcount))]
    rfl
  · rw [if_neg (not_or.2 ⟨Nat.ne_of_gt hsize, (hnone hsize).not.2 hcount⟩),
      if_neg (not_or.2 ⟨Nat.ne_of_gt hsize', (hnone hsize').not.2 hcount⟩)]
    have hcollect := carryOver_collect hs ht hsize hsize' hrows hrows' hdraws hfields
    refine bind_eq_ok_iff.2 ⟨_, restrict_eq_ok_iff.2 ?_, rfl⟩
    rintro (- | - | -)
    · exact hcollect least
    · exact hcollect greatest
    · exact hcollect mean

end Summary

end PointPatch
