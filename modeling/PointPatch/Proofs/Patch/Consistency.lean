/-
PointPatch/Proofs/Patch/Consistency.lean

What operations keep of a patch.

A consistent patch has as many bytes as its header says: rows of the right
length, and no more than there is room for; or, for each dimension, a column
of its type that decodes to as many values as there are points.  Of a blob
nothing is asked, for what becomes of it is up to an outside codec.  Each
operation makes consistent patches of consistent ones, whatever the codec
does, because what a codec gives back is measured before it is used
(`IsConsistent.toRows`).  Since its schema has no empty slots, a consistent
patch is reduced to a projection (`IsConsistent.exists_reduce`).
-/
import PointPatch.Patch.Filter
import PointPatch.Proofs.Patch.Compression
import PointPatch.Proofs.Patch.Merging

namespace PointPatch

theorem Summary.isOf_compute {s : Schema} {rows : List UInt8} {m : Summary}
    (h : Summary.compute s rows = some m) : m.IsOf s := by
  rw [Summary.compute] at h
  split at h
  · cases h
  · cases h
    exact ⟨rfl, rfl, rfl⟩

/-! ### Patches -/

namespace Patch

variable {z : ColumnCodec} {e : Engine} {p q : Patch} {raw : RowPatch}

/-- There is as much in a patch as its header says. -/
def Agrees (z : ColumnCodec) : Patch → Prop
  | .rows p => p.rows.length = p.schema.size * p.count ∧ p.count ≤ p.capacity
  | .columns p => p.schema.dimensions.Forall₂ (fun d c => c.type = d.type ∧ c.count = p.count
      ∧ ∃ raw, c.decode z = .ok raw ∧ raw.payload.length = p.count * d.size) p.columns
  | .blob _ => True

/-- A patch of a schema without empty slots, with a summary in this schema, and with as much in it
as its header says. -/
structure IsConsistent (z : ColumnCodec) (p : Patch) : Prop where
  built : p.schema.Built
  filled : p.schema.isFilled = true
  summary_isOf : ∀ m, p.summary = some m → m.IsOf p.schema
  agrees : p.Agrees z

theorem agrees_columns_iff {p : ColumnPatch} :
    (Patch.columns p).Agrees z ↔ ∃ raws, p.Holds z raws := by
  have hcolumn : ∀ (d : Dimension) (c : Column),
      (c.type = d.type ∧ c.count = p.count
          ∧ ∃ raw, c.decode z = .ok raw ∧ raw.payload.length = p.count * d.size)
        ↔ ∃ raw, c.decode z = .ok raw ∧ ColumnPatch.Fits p.count d raw := by
    intro d c
    constructor
    · rintro ⟨htype, hcount, raw, hraw, hlength⟩
      obtain ⟨bytes, -, rfl⟩ := Column.decode_eq_ok_iff.1 hraw
      exact ⟨_, hraw, htype, hcount, hlength⟩
    · rintro ⟨raw, hraw, htype, hcount, hlength⟩
      obtain ⟨bytes, -, rfl⟩ := Column.decode_eq_ok_iff.1 hraw
      exact ⟨htype, hcount, _, hraw, hlength⟩
  show p.schema.dimensions.Forall₂ _ p.columns ↔ _
  simp only [hcolumn]
  rw [forall₂_exists_iff]
  exact exists_congr fun raws => ⟨fun h => ⟨h.1, h.2⟩, fun h => ⟨h.decode, h.fits⟩⟩

/-- What becomes of a consistent patch is consistent, if it has the schema still. -/
theorem IsConsistent.of_schema (h : p.IsConsistent z) (hschema : q.schema = p.schema)
    (hsummary : ∀ m, q.summary = some m → m.IsOf q.schema) (hagrees : q.Agrees z) :
    q.IsConsistent z :=
  ⟨hschema ▸ h.built, hschema ▸ h.filled, hsummary, hagrees⟩

theorem IsConsistent.of_header (h : p.IsConsistent z) (hheader : q.header = p.header)
    (hagrees : q.Agrees z) : q.IsConsistent z := by
  have hschema : q.schema = p.schema := congrArg PatchHeader.schema hheader
  refine h.of_schema hschema (fun m hm => ?_) hagrees
  rw [hschema]
  exact h.summary_isOf m ((congrArg PatchHeader.summary hheader).symm.trans hm)

theorem isConsistent_ofWhole {schema : Schema} {count : Nat} {rows : List UInt8}
    (hb : schema.Built) (hf : schema.isFilled = true) (hrows : rows.length = schema.size * count) :
    (Patch.rows (RowPatch.ofWhole schema count rows)).IsConsistent z :=
  ⟨hb, hf, fun _ hm => Summary.isOf_compute hm, hrows, Nat.le_refl count⟩

/-! ### Steps -/

/-- Whatever form a consistent patch has, its rows are as long as its header says. -/
theorem IsConsistent.toRows (h : p.IsConsistent e.deflate) (hraw : p.toRows e = .ok raw) :
    (Patch.rows raw).IsConsistent e.deflate := by
  refine h.of_header (header_of_toRows hraw) ?_
  cases p with
  | rows p =>
    cases hraw
    exact h.agrees
  | columns p =>
    obtain ⟨raws, hholds⟩ := agrees_columns_iff.1 h.agrees
    cases hraw.symm.trans (hholds.toRows h.built)
    exact ⟨ColumnPatch.length_wovenRows hholds.fits, Nat.le_refl _⟩
  | blob p =>
    -- the length of what the codec gives back has been checked
    obtain ⟨codec, rows, -, -, hlength, rfl⟩ := toRows_blob_eq_ok_iff.1 hraw
    exact ⟨hlength, Nat.le_refl _⟩

theorem IsConsistent.toColumns {c : ColumnPatch} (h : p.IsConsistent e.deflate)
    (hc : p.toColumns e = .ok c) :
    (Patch.columns c).header = p.header ∧ (Patch.columns c).IsConsistent e.deflate := by
  have hsplit : ∀ raw, p.toRows e = .ok raw → (Patch.columns (.ofRows raw)).header = p.header
      ∧ (Patch.columns (.ofRows raw)).IsConsistent e.deflate := by
    intro raw hraw
    have hrows := h.toRows hraw
    obtain ⟨raws, hholds, -⟩ := ColumnPatch.exists_holds_ofRows hrows.built hrows.agrees.1
    exact ⟨header_of_toRows hraw, hrows.of_header rfl (agrees_columns_iff.2 ⟨raws, hholds⟩)⟩
  cases p with
  | rows p =>
    cases hc
    exact hsplit p rfl
  | columns p =>
    cases hc
    exact ⟨rfl, h⟩
  | blob p =>
    obtain ⟨raw, hraw, hc⟩ := bind_eq_ok_iff.1 hc
    cases hc
    exact hsplit raw hraw

/-- Unless it is a blob, a consistent patch has rows. -/
theorem IsConsistent.exists_toRows (h : p.IsConsistent e.deflate) (hform : p.form ≠ .blob) :
    ∃ raw, p.toRows e = .ok raw := by
  cases p with
  | rows p => exact ⟨p, rfl⟩
  | columns p =>
    obtain ⟨raws, hholds⟩ := agrees_columns_iff.1 h.agrees
    exact ⟨_, hholds.toRows h.built⟩
  | blob p => exact absurd rfl hform

theorem IsConsistent.add {p q : RowPatch} {point : Point} (h : (Patch.rows p).IsConsistent z)
    (hq : p.add point = .ok q) : (Patch.rows q).IsConsistent z := by
  obtain ⟨hlength, r, hr, hq⟩ := RowPatch.parts_of_add hq
  obtain ⟨capacity, rfl, hroom⟩ := RowPatch.capacity_of_makeRoom hr
  obtain ⟨hrows, hcount⟩ := h.agrees
  rw [hq]
  refine h.of_schema rfl h.summary_isOf ⟨?_, hroom hcount⟩
  show (p.rows ++ point.data).length = p.schema.size * (p.count + 1)
  rw [List.length_append, hrows, hlength, Nat.mul_succ]

theorem IsConsistent.ofRows {schema : Schema} {rows : List UInt8} (hb : schema.Built)
    (hf : schema.isFilled = true) (h : RowPatch.ofRows schema rows = .ok raw) :
    (Patch.rows raw).IsConsistent z := by
  obtain ⟨count, hcount, rfl⟩ := RowPatch.ofRows_eq_ok_iff.1 h
  exact isConsistent_ofWhole hb hf (Schema.countRows_eq_ok_iff.1 hcount).1

theorem isConsistent_vacant {schema : Schema} (hb : schema.Built) (hf : schema.isFilled = true)
    (capacity : Nat) : (Patch.rows (RowPatch.vacant schema capacity)).IsConsistent z := by
  refine ⟨hb, hf, fun m hm => ?_, rfl, Nat.zero_le capacity⟩
  cases hm

theorem IsConsistent.ofPoints {points : PointList}
    (hpoints : ∀ point ∈ points, point.schema.Built ∧ point.schema.isFilled = true)
    (h : RowPatch.ofPoints points = .ok raw) : (Patch.rows raw).IsConsistent z := by
  cases points with
  | nil => cases h
  | cons first points =>
    obtain ⟨hb, hf⟩ := hpoints first List.mem_cons_self
    obtain ⟨p, hp, h⟩ := bind_eq_ok_iff.1 h
    cases h
    have hstep : ∀ (p : RowPatch) (point : Point) (q : RowPatch),
        (Patch.rows p).IsConsistent z → p.add point = .ok q → (Patch.rows q).IsConsistent z :=
      fun _ _ _ hp hadd => hp.add hadd
    have hp := foldlM_invariant hstep (isConsistent_vacant hb hf _) hp
    exact hp.of_schema rfl (fun m hm => Summary.isOf_compute hm) hp.agrees

theorem IsConsistent.ofWire {schema : Schema} {message : List UInt8} (hb : schema.Built)
    (hf : schema.isFilled = true) (h : Patch.ofWire e schema message = .ok p) :
    p.IsConsistent e.deflate := by
  obtain ⟨hschema, hwell⟩ := wellFormed_of_ofWire hb h
  obtain ⟨raw, -, -, hsummary⟩ := exists_rows_of_ofWire hb h
  refine ⟨hschema ▸ hb, hschema ▸ hf, fun m hm => ?_, ?_⟩
  · rw [hsummary] at hm
    exact Summary.isOf_compute hm
  cases p with
  | rows p =>
    obtain ⟨order, body, -, q, hq, hp⟩ := ofWire_eq_ok_iff.1 h
    cases hp
    obtain ⟨count, -, rfl⟩ := (RowPatch.ofPayload_eq_ok_iff hb).1 hq
    exact ⟨hwell, Nat.le_refl _⟩
  | columns p => exact agrees_columns_iff.2 (wellFormed_columns_iff.1 hwell)
  | blob p => exact trivial

/-- Bounds and a summary of its own leave a patch consistent. -/
theorem IsConsistent.withHeader (h : p.IsConsistent z) {header : PatchHeader}
    (hschema : header.schema = p.schema) (hcount : header.count = p.count)
    (hsummary : ∀ m, header.summary = some m → m.IsOf p.schema) :
    (p.withHeader header).IsConsistent z := by
  obtain ⟨schema, count, bounds, summary⟩ := header
  obtain rfl : schema = p.schema := hschema
  obtain rfl : count = p.count := hcount
  cases p <;> exact ⟨h.built, h.filled, hsummary, h.agrees⟩

theorem IsConsistent.computeBounds (h : p.IsConsistent z) (hq : p.computeBounds e = .ok q) :
    q.IsConsistent z := by
  obtain ⟨raw, -, hq⟩ := bind_eq_ok_iff.1 hq
  cases hq
  exact h.withHeader rfl rfl h.summary_isOf

theorem IsConsistent.computeSummary (h : p.IsConsistent z) (hq : p.computeSummary e = .ok q) :
    q.IsConsistent z := by
  obtain ⟨raw, hraw, hq⟩ := bind_eq_ok_iff.1 hq
  cases hq
  refine h.withHeader rfl rfl fun m hm => ?_
  rw [← schema_of_toRows hraw]
  exact Summary.isOf_compute hm

theorem IsConsistent.filter {name : String} {condition : Condition} (h : p.IsConsistent e.deflate)
    (hq : p.filter e name condition = .ok raw) : (Patch.rows raw).IsConsistent e.deflate := by
  obtain ⟨d, -, hq⟩ := bind_eq_ok_iff.1 hq
  obtain ⟨whole, hwhole, hq⟩ := bind_eq_ok_iff.1 hq
  have hschema : whole.schema = p.schema := schema_of_toRows hwhole
  exact .ofRows (hschema ▸ h.built) (hschema ▸ h.filled) hq

/-- Without empty slots there is none in front. -/
theorem IsConsistent.packed {c : ColumnPatch} (h : (Patch.columns c).IsConsistent z)
    {positions : List Nat} {ds : List Dimension}
    (hds : positions.Forall₂ (fun i d => c.schema.dimension? i = some d) ds) :
    ∀ i ∈ positions, ∀ j < i, (c.schema.dimension? j).isSome := by
  intro i hi j hj
  obtain ⟨d, -, hd⟩ := exists_of_mem_right hds.flip hi
  exact Schema.isSome_dimension?_of_isFilled h.filled
    (hj.trans (Schema.lt_slotCount_of_dimension? hd))

theorem IsConsistent.length_columns {c : ColumnPatch} (h : (Patch.columns c).IsConsistent z) :
    c.columns.length = c.schema.dimensions.length :=
  (List.Forall₂.length_eq h.agrees).symm

theorem IsConsistent.reduce {names : List String} (h : p.IsConsistent z)
    (hq : p.reduce names = .ok q) : q.IsConsistent z := by
  obtain ⟨c, positions, schema, c', rfl, hpositions, hsubset, hc', rfl⟩ := reduce_eq_ok_iff.1 hq
  obtain ⟨ds, hds, -⟩ := h.built.exists_dimensions hpositions
  have hpicked := ColumnPatch.isPicked_of_subset h.length_columns hds (h.packed hds) hsubset hc'
  obtain ⟨raws, hholds⟩ := agrees_columns_iff.1 h.agrees
  obtain ⟨raws', hholds', -⟩ := hpicked.exists_holds hholds
  obtain ⟨t, ht, -, hfilled⟩ := Schema.exists_filled_subset hds
  obtain rfl : schema = t := Except.ok.inj (hsubset.symm.trans ht)
  obtain ⟨columns, summary, -, hm, rfl⟩ := ColumnPatch.subset_eq_ok_iff.1 hc'
  exact ⟨hpicked.built, hfilled, Summary.isOf_of_mapM_restrict hm,
    agrees_columns_iff.2 ⟨raws', hholds'⟩⟩

/-- Without empty slots a consistent patch is reduced to a projection, if the names are found. -/
theorem IsConsistent.exists_reduce {c : ColumnPatch} {names : List String}
    (h : (Patch.columns c).IsConsistent z)
    (hnames : ∀ name ∈ names, ∃ i, c.schema.position? name = some i) :
    ∃ q, (Patch.columns c).reduce names = .ok (.columns q) ∧ c.IsProjection names q := by
  obtain ⟨positions, hpositions⟩ := exists_forall₂ hnames
  obtain ⟨ds, hds, -⟩ := h.built.exists_dimensions hpositions
  exact Patch.exists_reduce h.built h.length_columns h.summary_isOf hpositions (h.packed hds)

theorem IsConsistent.compress {s s' : Sampling} (hz : e.deflate.Lossless)
    (h : p.IsConsistent e.deflate)
    (hmem : p.schema.target = .columns →
      ∀ d ∈ p.schema.dimensions, e.deflate.memory.grants (p.count * d.size) = true)
    (hq : p.compress e s = .ok (q, s')) : q.IsConsistent e.deflate := by
  obtain ⟨-, rfl, -⟩ | ⟨-, -, raw, hraw, rfl⟩ | ⟨-, -, codec, raw, stored, -, hraw, hstored, rfl⟩
    | ⟨htarget, c, stored, hc, hstored, rfl⟩ := cases_of_compress hq
  · exact h
  · -- to rows
    exact h.toRows hraw
  · -- to a blob
    obtain ⟨bytes, -, hstored⟩ := bind_eq_ok_iff.1 hstored
    cases hstored
    exact h.of_header (header_of_toRows hraw) trivial
  · -- to columns
    obtain ⟨hheader, hcolumns⟩ := h.toColumns hc
    have hschema : c.schema = p.schema := congrArg PatchHeader.schema hheader
    have hcount : c.count = p.count := congrArg PatchHeader.count hheader
    obtain ⟨raws, hholds⟩ := agrees_columns_iff.1 hcolumns.agrees
    obtain ⟨hsame, hholds'⟩ := hholds.of_compress hz (by
      rw [hschema, hcount]
      exact hmem htarget) hstored
    exact hcolumns.of_header hsame (agrees_columns_iff.2 ⟨raws, hholds'⟩)

theorem IsConsistent.merge {first : Patch} {rest : List Patch}
    (h : ∀ p ∈ first :: rest, p.IsConsistent e.deflate)
    (hschema : ∀ p ∈ first :: rest, p.schema = first.schema)
    (hm : Patch.merge e (first :: rest) = .ok raw) : (Patch.rows raw).IsConsistent e.deflate := by
  have hid : ∀ p ∈ first :: rest, p.schema.pcid = first.schema.pcid :=
    fun p hp => congrArg Schema.pcid (hschema p hp)
  obtain ⟨m, hm', hsame, hcount, hcapacity, hrows, hsummary⟩ :=
    exists_merge hid fun p hp => exists_toRows_of_merge hid hm hp
  obtain rfl := Except.ok.inj (hm.symm.trans hm')
  refine (h first List.mem_cons_self).of_schema hsame (fun m hm => ?_) ⟨?_, Nat.le_of_eq hcapacity.symm⟩
  · exact Summary.isOf_compute (hsummary.symm.trans hm)
  · rw [hrows, hcount, hsame]
    refine length_flatMap_rowBytes fun p hp => ?_
    obtain ⟨raw, hraw⟩ := exists_toRows_of_merge hid hm hp
    have hlength := ((h p hp).toRows hraw).agrees.1
    rw [schema_of_toRows hraw, count_of_toRows hraw, hschema p hp] at hlength
    rw [rowBytes_eq hraw, hlength]

end Patch

end PointPatch
