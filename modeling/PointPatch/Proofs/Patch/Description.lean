/-
PointPatch/Proofs/Patch/Description.lean

What the header of a patch says of its rows.

A patch is made of points, of rows or of a message, and then points are added,
it is compressed and taken apart again, points are picked out of it, and its
bounds and its summary are computed anew, in any order and any number of times.
The bounds are those of the rows after every one of these steps: computing them
anew changes nothing.  The summary is that of the rows which the patch had when
a summary was computed last (`Run.isDescribed`).  Only adding a point makes a
difference between the two: it widens the bounds and leaves the summary alone,
so that a statistic is one of an earlier state until the summary is computed
anew (`add_leaves_summary`).
-/
import PointPatch.Patch.Description
import PointPatch.Proofs.Patch.Bounds
import PointPatch.Proofs.Schema.Names
import PointPatch.Proofs.Stream.Stored

namespace PointPatch

/-- Neither codec loses what it is handed. -/
structure Engine.Lossless (e : Engine) : Prop where
  deflate : e.deflate.Lossless
  blobCodec : ∀ codec, e.blobCodec? = some codec → codec.Lossless

theorem BlobCodec.Lossless.restores {codec : BlobCodec} (h : codec.Lossless) (schema : Schema)
    {count : Nat} (hcount : count < 2 ^ 32) : codec.Restores schema count := by
  intro rows hrows
  have hword : (UInt32.ofNat count).toNat = count := UInt32.toNat_ofNat_of_lt' hcount
  exact h schema rows (UInt32.ofNat count) (by rw [hword, hrows])

namespace Patch

variable {e : Engine} {schema : Schema} {p q : Patch} {raw : RowPatch} {k : Nat}

/-! ### Rows that stay -/

/-- What is asked for a patch to be compressed without loss: there are buffers for its columns, or
a codec can be told the number of its points. -/
structure IsStorable (memory : Memory) (p : Patch) : Prop where
  columns : p.schema.target = .columns →
    ∀ d ∈ p.schema.dimensions, memory.grants (p.count * d.size) = true
  blob : p.schema.target = .blob → p.count < 2 ^ 32

theorem wellFormed_rows_of_toRows (hb : p.schema.Built) (hp : p.WellFormed e)
    (h : p.toRows e = .ok raw) : (Patch.rows raw).WellFormed e := by
  have hlength := hp.length_of_toRows hb h
  rw [← schema_of_toRows h, ← count_of_toRows h] at hlength
  exact hlength

theorem WellFormed.withHeader (h : p.WellFormed e) {header : PatchHeader}
    (hschema : header.schema = p.schema) (hcount : header.count = p.count) :
    (p.withHeader header).WellFormed e := by
  obtain ⟨schema, count, bounds, summary⟩ := header
  obtain rfl : schema = p.schema := hschema
  obtain rfl : count = p.count := hcount
  cases p <;> exact h

/-- A patch that has been compressed has the header and the rows that it had. -/
theorem rows_of_compress {s s' : Sampling} (hb : p.schema.Built) (he : e.Lossless)
    (hp : p.WellFormed e) (hstore : p.IsStorable e.deflate.memory) (hraw : p.toRows e = .ok raw)
    (hq : p.compress e s = .ok (q, s')) :
    q.header = p.header ∧ q.WellFormed e
      ∧ ∃ raw', q.toRows e = .ok raw' ∧ raw'.rows = raw.rows := by
  obtain ⟨-, rfl, -⟩ | ⟨-, -, raw', hraw', rfl⟩
    | ⟨htarget, -, codec, raw', stored, hregistered, hraw', hstored, rfl⟩
    | ⟨htarget, c, stored, hc, hstored, rfl⟩ := cases_of_compress hq
  · exact ⟨rfl, hp, raw, hraw, rfl⟩
  · -- to rows
    obtain rfl := Except.ok.inj (hraw.symm.trans hraw')
    exact ⟨header_of_toRows hraw, wellFormed_rows_of_toRows hb hp hraw, raw, rfl, rfl⟩
  · -- to a blob
    obtain rfl := Except.ok.inj (hraw.symm.trans hraw')
    have hlength : raw.rows.length = raw.schema.size * raw.count :=
      wellFormed_rows_of_toRows hb hp hraw
    have hcount := hstore.blob htarget
    rw [← count_of_toRows hraw] at hcount
    have hrestores := (he.blobCodec codec hregistered).restores raw.schema hcount
    obtain ⟨stored', hstored', hheader, hback⟩ := exists_ofRows hregistered hrestores hlength
    obtain rfl := Except.ok.inj (hstored.symm.trans hstored')
    obtain ⟨codec', rows, hcodec', hrows, hlength', -⟩ := toRows_blob_eq_ok_iff.1 hback
    exact ⟨hheader.trans (header_of_toRows hraw), ⟨codec', rows, hcodec', hrows, hlength'⟩,
      _, hback, rfl⟩
  · -- to columns
    obtain ⟨c', raws, raw', hc', hheader, hholds, hraw', hwoven⟩ := hp.exists_toColumns hb
    obtain rfl := Except.ok.inj (hc.symm.trans hc')
    obtain rfl := Except.ok.inj (hraw.symm.trans hraw')
    have hmem := hstore.columns htarget
    have hschema : c.schema = p.schema := congrArg PatchHeader.schema hheader
    have hcount : c.count = p.count := congrArg PatchHeader.count hheader
    rw [← hschema, ← hcount] at hmem
    obtain ⟨hsame, hholds'⟩ := hholds.of_compress he.deflate hmem hstored
    have hback := hholds'.toRows (by rw [hsame, hschema]; exact hb)
    refine ⟨hsame.trans hheader, wellFormed_columns_iff.2 ⟨raws, hholds'⟩, _, hback, ?_⟩
    -- both patches weave the same raw columns, as many rows of them
    show ColumnPatch.wovenRows stored.count raws = raw.rows
    rw [hwoven, hsame, hcount]

/-! ### Headers that describe the rows -/

/-- The bounds of a patch are those of its rows, and its summary is that of the first `k` of
them. -/
structure IsDescribed (e : Engine) (schema : Schema) (p : Patch) (k : Nat) : Prop where
  schema_eq : p.schema = schema
  wellFormed : p.WellFormed e
  le_count : k ≤ p.count
  bounds_eq : ∀ raw, p.toRows e = .ok raw → p.bounds = .ofRows schema raw.rows
  summary_eq : ∀ raw, p.toRows e = .ok raw →
    p.summary = Summary.compute schema (raw.rows.take (schema.size * k))

theorem IsDescribed.of_header (h : p.IsDescribed e schema k) (hheader : q.header = p.header)
    (hq : q.WellFormed e)
    (hrows : ∀ raw', q.toRows e = .ok raw' → ∃ raw, p.toRows e = .ok raw ∧ raw'.rows = raw.rows) :
    q.IsDescribed e schema k where
  schema_eq := (congrArg PatchHeader.schema hheader).trans h.schema_eq
  wellFormed := hq
  le_count := h.le_count.trans_eq (congrArg PatchHeader.count hheader).symm
  bounds_eq := by
    intro raw' hraw'
    obtain ⟨raw, hraw, hsame⟩ := hrows raw' hraw'
    rw [hsame, ← h.bounds_eq raw hraw]
    exact congrArg PatchHeader.bounds hheader
  summary_eq := by
    intro raw' hraw'
    obtain ⟨raw, hraw, hsame⟩ := hrows raw' hraw'
    rw [hsame, ← h.summary_eq raw hraw]
    exact congrArg PatchHeader.summary hheader

/-- Rows that are summarised as they come are described. -/
theorem isDescribed_ofWhole {count : Nat} {rows : List UInt8}
    (hrows : rows.length = schema.size * count) :
    (Patch.rows (RowPatch.ofWhole schema count rows)).IsDescribed e schema count where
  schema_eq := rfl
  wellFormed := hrows
  le_count := Nat.le_refl count
  bounds_eq := by
    rintro raw ⟨⟩
    rfl
  summary_eq := by
    rintro raw ⟨⟩
    show Summary.compute schema rows = Summary.compute schema (rows.take (schema.size * count))
    rw [← hrows, List.take_length]

theorem isDescribed_vacant (schema : Schema) (capacity : Nat) :
    (Patch.rows (RowPatch.vacant schema capacity)).IsDescribed e schema 0 where
  schema_eq := rfl
  wellFormed := rfl
  le_count := Nat.le_refl 0
  bounds_eq := by
    rintro raw ⟨⟩
    show Bounds.empty = .ofRows schema []
    rw [Bounds.ofRows_eq_foldl, chunks_nil]
    rfl
  summary_eq := by
    rintro raw ⟨⟩
    show none = Summary.compute schema []
    rw [Summary.compute, if_pos]
    rcases Nat.eq_zero_or_pos schema.size with hsize | hsize
    · exact .inl hsize
    · exact .inr hsize

/-- A point that is added widens the bounds and has no part in the summary. -/
theorem IsDescribed.add {p q : RowPatch} {point : Point}
    (h : (Patch.rows p).IsDescribed e schema k) (hpoint : point.schema = schema)
    (hq : p.add point = .ok q) : (Patch.rows q).IsDescribed e schema k := by
  obtain rfl : p.schema = schema := h.schema_eq
  have hbounds := RowPatch.bounds_of_add hq
  obtain ⟨hlength, r, hr, hq⟩ := RowPatch.parts_of_add hq
  obtain ⟨capacity, rfl, -⟩ := RowPatch.capacity_of_makeRoom hr
  have hrows : p.rows.length = p.schema.size * p.count := h.wellFormed
  have hcount : k ≤ p.count := h.le_count
  have hschema : q.schema = p.schema := by rw [hq]
  refine ⟨hschema, ?_, ?_, ?_, ?_⟩
  · show q.rows.length = q.schema.size * q.count
    rw [hq]
    show (p.rows ++ point.data).length = p.schema.size * (p.count + 1)
    rw [List.length_append, hrows, hlength, Nat.mul_succ]
  · show k ≤ q.count
    rw [hq]
    exact hcount.trans (Nat.le_succ _)
  · rintro raw ⟨⟩
    have hold : p.bounds = .ofRows p.schema p.rows := h.bounds_eq p rfl
    have hnew : q.rows = p.rows ++ point.data := by rw [hq]
    show q.bounds = .ofRows p.schema q.rows
    rw [hnew, Bounds.ofRows_append hrows hlength, hbounds, hpoint, hold]
  · rintro raw ⟨⟩
    -- the first rows are the same, and there are enough of them
    have hle : p.schema.size * k ≤ p.rows.length := hrows ▸ Nat.mul_le_mul_left _ hcount
    have hnew : q.rows = p.rows ++ point.data := by rw [hq]
    have hsummary : q.summary = p.summary := by rw [hq]
    show q.summary = Summary.compute p.schema (q.rows.take (p.schema.size * k))
    rw [hnew, List.take_append_of_le_length hle, hsummary]
    exact h.summary_eq p rfl

/-- Bounds that are computed anew are the bounds that a described patch has. -/
theorem IsDescribed.computeBounds_eq (hb : schema.Built) (h : p.IsDescribed e schema k) :
    p.computeBounds e = .ok p := by
  obtain ⟨raw, hraw, -⟩ := h.wellFormed.exists_toRows (h.schema_eq ▸ hb)
  have hbounds : raw.computeBounds.bounds = p.bounds := by
    rw [h.bounds_eq raw hraw, ← h.schema_eq, ← schema_of_toRows hraw]
    rfl
  rw [computeBounds, hraw]
  show Except.ok (p.withHeader { p.header with bounds := raw.computeBounds.bounds }) = .ok p
  rw [hbounds]
  cases p <;> rfl

/-- The summary that is computed anew is that of all rows. -/
theorem IsDescribed.computeSummary (hb : schema.Built) (h : p.IsDescribed e schema k)
    (hq : p.computeSummary e = .ok q) : q.IsDescribed e schema q.count := by
  obtain ⟨raw, hraw, hq⟩ := bind_eq_ok_iff.1 hq
  cases hq
  have hschema := h.schema_eq
  have hrows : raw.rows.length = schema.size * p.count :=
    hschema ▸ h.wellFormed.length_of_toRows (hschema ▸ hb) hraw
  obtain ⟨raw', hraw', hsame⟩ := toRows_withHeader hraw
    { p.header with summary := raw.computeSummary.summary } rfl rfl
  have hcount : (p.withHeader { p.header with summary := raw.computeSummary.summary }).count
      = p.count := by
    rw [count, header_withHeader]
    rfl
  refine ⟨?_, h.wellFormed.withHeader rfl rfl, Nat.le_refl _, ?_, ?_⟩
  · rw [Patch.schema, header_withHeader]
    exact hschema
  · intro raw'' hraw''
    obtain rfl := Except.ok.inj (hraw'.symm.trans hraw'')
    rw [hsame, ← h.bounds_eq raw hraw, bounds, header_withHeader]
    rfl
  · intro raw'' hraw''
    obtain rfl := Except.ok.inj (hraw'.symm.trans hraw'')
    rw [hsame, hcount, ← hrows, List.take_length, summary, header_withHeader, ← hschema,
      ← schema_of_toRows hraw]
    rfl

theorem IsDescribed.compress {s s' : Sampling} (hb : schema.Built) (he : e.Lossless)
    (h : p.IsDescribed e schema k) (hstore : p.IsStorable e.deflate.memory)
    (hq : p.compress e s = .ok (q, s')) : q.IsDescribed e schema k := by
  have hb' : p.schema.Built := h.schema_eq ▸ hb
  obtain ⟨raw, hraw, -⟩ := h.wellFormed.exists_toRows hb'
  obtain ⟨hheader, hwell, raw', hraw', hsame⟩ :=
    rows_of_compress hb' he h.wellFormed hstore hraw hq
  refine h.of_header hheader hwell fun raw'' hraw'' => ⟨raw, hraw, ?_⟩
  rw [← hsame, Except.ok.inj (hraw'.symm.trans hraw'')]

theorem IsDescribed.toRows (hb : schema.Built) (h : p.IsDescribed e schema k)
    (hraw : p.toRows e = .ok raw) : (Patch.rows raw).IsDescribed e schema k := by
  refine h.of_header (header_of_toRows hraw)
    (wellFormed_rows_of_toRows (h.schema_eq ▸ hb) h.wellFormed hraw) ?_
  rintro raw' ⟨⟩
  exact ⟨raw, hraw, rfl⟩

theorem isDescribed_ofRows {rows : List UInt8} (hraw : RowPatch.ofRows schema rows = .ok raw) :
    (Patch.rows raw).IsDescribed e schema raw.count := by
  obtain ⟨count, hcount, rfl⟩ := RowPatch.ofRows_eq_ok_iff.1 hraw
  exact isDescribed_ofWhole (Schema.countRows_eq_ok_iff.1 hcount).1

theorem IsDescribed.filter {name : String} {condition : Condition}
    (h : p.IsDescribed e schema k) (hraw : p.filter e name condition = .ok raw) :
    (Patch.rows raw).IsDescribed e schema raw.count := by
  obtain ⟨d, -, hraw⟩ := bind_eq_ok_iff.1 hraw
  obtain ⟨whole, hwhole, hraw⟩ := bind_eq_ok_iff.1 hraw
  rw [schema_of_toRows hwhole, h.schema_eq] at hraw
  exact isDescribed_ofRows hraw

theorem isDescribed_ofWire {message : List UInt8} (hb : schema.Built)
    (h : Patch.ofWire e schema message = .ok p) : p.IsDescribed e schema p.count := by
  obtain ⟨rfl, hwell⟩ := wellFormed_of_ofWire hb h
  obtain ⟨raw, hraw, hbounds, hsummary⟩ := exists_rows_of_ofWire hb h
  have hrows := hwell.length_of_toRows hb hraw
  refine ⟨rfl, hwell, Nat.le_refl _, ?_, ?_⟩
  · intro raw' hraw'
    obtain rfl := Except.ok.inj (hraw.symm.trans hraw')
    exact hbounds
  · intro raw' hraw'
    obtain rfl := Except.ok.inj (hraw.symm.trans hraw')
    rw [← hrows, List.take_length]
    exact hsummary

theorem IsDescribed.addAll {p q : RowPatch} {points : PointList}
    (h : (Patch.rows p).IsDescribed e schema k) (hpoints : ∀ point ∈ points, point.schema = schema)
    (hq : points.foldlM RowPatch.add p = .ok q) : (Patch.rows q).IsDescribed e schema k := by
  induction points generalizing p with
  | nil =>
    cases hq
    exact h
  | cons point points ih =>
    rw [List.forall_mem_cons] at hpoints
    obtain ⟨r, hr, hq⟩ := bind_eq_ok_iff.1 hq
    exact ih (h.add hpoints.1 hr) hpoints.2 hq

/-- Points are added one by one, and the summary is computed once all are there. -/
theorem isDescribed_ofPoints {points : PointList} (hb : schema.Built)
    (hpoints : ∀ point ∈ points, point.schema = schema)
    (hraw : RowPatch.ofPoints points = .ok raw) :
    (Patch.rows raw).IsDescribed e schema raw.count := by
  cases points with
  | nil => cases hraw
  | cons first points =>
    obtain rfl : first.schema = schema := hpoints first List.mem_cons_self
    obtain ⟨p, hp, hraw⟩ := bind_eq_ok_iff.1 hraw
    cases hraw
    have hadded := (isDescribed_vacant (e := e) first.schema _).addAll hpoints hp
    exact hadded.computeSummary hb (q := .rows p.computeSummary) rfl

/-- The settings have no part in what describes a patch. -/
theorem IsDescribed.withConfig (h : p.IsDescribed e schema k) (config : Config) :
    p.IsDescribed { e with config } schema k :=
  ⟨h.schema_eq, h.wellFormed, h.le_count, h.bounds_eq, h.summary_eq⟩

/-! ### Runs -/

/-- A patch that has come about in one schema, and how many points it had when its summary was
computed last. -/
inductive Run (e : Engine) (schema : Schema) : Patch → Nat → Prop
  | withRoom {capacity : Nat} {p : RowPatch} :
      RowPatch.withRoom schema capacity e.deflate.memory = .ok p → Run e schema (.rows p) 0
  | ofPoints {points : PointList} {p : RowPatch} :
      (∀ point ∈ points, point.schema = schema) → RowPatch.ofPoints points = .ok p →
      Run e schema (.rows p) p.count
  | ofRows {rows : List UInt8} {p : RowPatch} :
      RowPatch.ofRows schema rows = .ok p → Run e schema (.rows p) p.count
  | ofWire {config : Config} {message : List UInt8} {p : Patch} :
      Patch.ofWire { e with config } schema message = .ok p → Run e schema p p.count
  | add {p q : RowPatch} {point : Point} {k : Nat} :
      Run e schema (.rows p) k → point.schema = schema → p.add point = .ok q →
      Run e schema (.rows q) k
  | compress {config : Config} {s s' : Sampling} {p q : Patch} {k : Nat} :
      Run e schema p k → p.IsStorable e.deflate.memory → p.compress { e with config } s = .ok (q, s') →
      Run e schema q k
  | toRows {p : Patch} {raw : RowPatch} {k : Nat} :
      Run e schema p k → p.toRows e = .ok raw → Run e schema (.rows raw) k
  | filter {name : String} {condition : Condition} {p : Patch} {q : RowPatch} {k : Nat} :
      Run e schema p k → p.filter e name condition = .ok q → Run e schema (.rows q) q.count
  | computeBounds {p q : Patch} {k : Nat} :
      Run e schema p k → p.computeBounds e = .ok q → Run e schema q k
  | computeSummary {p q : Patch} {k : Nat} :
      Run e schema p k → p.computeSummary e = .ok q → Run e schema q q.count

/-- The summary of a patch is that of the rows which it had when a summary was computed last, and
the bounds are those of all its rows. -/
theorem Run.isDescribed (hb : schema.Built) (he : e.Lossless) (h : Run e schema p k) :
    p.IsDescribed e schema k := by
  induction h with
  | @withRoom capacity p hp =>
    obtain ⟨-, rfl⟩ := RowPatch.withRoom_eq_ok_iff.1 hp
    exact isDescribed_vacant schema capacity
  | ofPoints hpoints hp => exact isDescribed_ofPoints hb hpoints hp
  | ofRows hp => exact isDescribed_ofRows hp
  | ofWire hp => exact (isDescribed_ofWire hb hp).withConfig e.config
  | add _ hpoint hq ih => exact ih.add hpoint hq
  | @compress config _ _ _ _ _ _ hstore hq ih =>
    have hstored := IsDescribed.compress hb (e := { e with config })
      ⟨he.deflate, he.blobCodec⟩ (ih.withConfig config) hstore hq
    exact hstored.withConfig e.config
  | toRows _ hraw ih => exact ih.toRows hb hraw
  | filter _ hq ih => exact ih.filter hq
  | computeBounds _ hq ih =>
    obtain rfl := Except.ok.inj ((ih.computeBounds_eq hb).symm.trans hq)
    exact ih
  | computeSummary _ hq ih => exact ih.computeSummary hb hq

/-- However a patch has come about in one schema, its rows can be had, its bounds are theirs, and
its summary is that of the rows which it had when a summary was computed last.  If no point has
been added since, these are all its rows, and bounds and summary that are computed anew are the
ones that it has. -/
theorem bounds_and_summary_of_run (hb : schema.Built) (he : e.Lossless) (h : Run e schema p k) :
    ∃ raw, p.toRows e = .ok raw ∧ p.bounds = .ofRows schema raw.rows
      ∧ p.computeBounds e = .ok p ∧ k ≤ p.count
      ∧ p.summary = Summary.compute schema (raw.rows.take (schema.size * k))
      ∧ (k = p.count → p.summary = Summary.compute schema raw.rows ∧ p.summarise e = .ok p) := by
  have hp := h.isDescribed hb he
  have hb' : p.schema.Built := hp.schema_eq ▸ hb
  obtain ⟨raw, hraw, -⟩ := hp.wellFormed.exists_toRows hb'
  have hbounds := hp.bounds_eq raw hraw
  have hsummary := hp.summary_eq raw hraw
  refine ⟨raw, hraw, hbounds, hp.computeBounds_eq hb, hp.le_count, hsummary, ?_⟩
  rintro rfl
  -- the first rows, as many as there are, are all rows
  have hrows := hp.wellFormed.length_of_toRows hb' hraw
  rw [hp.schema_eq] at hrows
  rw [← hrows, List.take_length] at hsummary
  refine ⟨hsummary, ?_⟩
  have hschema : raw.schema = schema := (schema_of_toRows hraw).trans hp.schema_eq
  rw [summarise, hraw]
  show Except.ok (p.withHeader { p.header with
    bounds := .ofRows raw.schema raw.rows, summary := Summary.compute raw.schema raw.rows }) = .ok p
  rw [hschema, ← hbounds, ← hsummary]
  cases p <;> rfl

/-- A row, a point that is added to it, and both of them stored as columns: the summary is that of
the row, until it is computed anew. -/
theorem bounds_and_summary_of_run_specimen :
    let e : Engine := { deflate := Deflate.codec }
    ∃ p, Run e .specimen p 1 ∧ p.form = .columns ∧ p.count = 2 ∧ p.computeBounds e = .ok p
      ∧ (∃ raw, p.toRows e = .ok raw
        ∧ p.summary = Summary.compute .specimen (raw.rows.take Schema.specimen.size))
      ∧ ∃ q, p.computeSummary e = .ok q ∧ q.summarise e = .ok q := by
  intro e
  have he : e.Lossless := ⟨Deflate.codec_lossless, fun codec hcodec => by cases hcodec⟩
  have hb := Schema.specimen_built
  let s : Sampling := ⟨20000, 5, List.replicate 4 {}⟩
  -- the patch is made
  obtain ⟨first, hfirst⟩ : ∃ p, RowPatch.ofRows .specimen Schema.specimen.zeroRow = .ok p :=
    ⟨_, rfl⟩
  have hone : first.schema = .specimen ∧ first.count = 1
      ∧ first.rows.length = first.schema.size * first.count := by
    obtain ⟨count, hcount, rfl⟩ := RowPatch.ofRows_eq_ok_iff.1 hfirst
    cases hcount
    exact ⟨rfl, rfl, rfl⟩
  obtain ⟨hschema, hcount, hrows⟩ := hone
  have hrun : Run e .specimen (.rows first) 1 := hcount ▸ Run.ofRows hfirst
  -- a point is added
  obtain ⟨second, hsecond⟩ : ∃ q, first.add (.zero .specimen) = .ok q :=
    RowPatch.exists_add hrows (by rw [hschema]; rfl) (by rw [hschema]; rfl)
  have hrun := hrun.add rfl hsecond
  have htwo : second.schema = .specimen ∧ second.count = 2 := by
    obtain ⟨-, r, hr, hsecond⟩ := RowPatch.parts_of_add hsecond
    obtain ⟨capacity, rfl, -⟩ := RowPatch.capacity_of_makeRoom hr
    rw [hsecond]
    exact ⟨hschema, congrArg Nat.succ hcount⟩
  obtain ⟨hschema, hcount⟩ := htwo
  have hmem : ∀ d ∈ second.schema.dimensions,
      e.deflate.memory.grants (second.count * d.size) = true := by
    rw [hschema, hcount]
    decide
  have htarget : (Patch.rows second).schema.target = .columns := congrArg Schema.target hschema
  -- the patch is stored as columns
  obtain ⟨p, s', hp, hheader, -⟩ := exists_compress_columns (e := e) (s := s)
    (by show second.schema.Built; rw [hschema]; exact hb)
    (by show second.schema.isFilled = true; rw [hschema]; decide)
    (hrun.isDescribed hb he).wellFormed he.deflate
    (by show 4 = second.schema.slotCount; rw [hschema]; rfl) hmem htarget
  have hstore : (Patch.rows second).IsStorable e.deflate.memory :=
    ⟨fun _ => hmem, fun hblob => by rw [htarget] at hblob; cases hblob⟩
  have hrun : Run e .specimen (.columns p) 1 := hrun.compress hstore hp
  have hcount : p.count = 2 := (congrArg PatchHeader.count hheader).trans hcount
  obtain ⟨raw, hraw, -, hbounds, -, hsummary, -⟩ := bounds_and_summary_of_run hb he hrun
  -- the summary is computed anew
  obtain ⟨q, hq⟩ : ∃ q, (Patch.columns p).computeSummary e = .ok q :=
    ⟨_, bind_eq_ok_iff.2 ⟨raw, hraw, rfl⟩⟩
  obtain ⟨raw', -, -, -, -, -, hanew⟩ := bounds_and_summary_of_run hb he (hrun.computeSummary hq)
  exact ⟨_, hrun, rfl, hcount, hbounds, ⟨raw, hraw, by simpa using hsummary⟩, q, hq, (hanew rfl).2⟩

/-! ### Points that are added -/

/-- A schema whose records are single bytes. -/
def bytewise : Schema :=
  (Schema.vacant 1).afterSets [{ name := "A", position := 0, type := .uint8 }]

/-- A point with a greater value is added to a row, and the greatest value stays what it was. -/
theorem add_leaves_summary :
    let e : Engine := { deflate := Deflate.codec }
    bytewise.Built ∧ bytewise.isFilled = true
      ∧ ∃ p, Run e bytewise (.rows p) 1 ∧ p.count = 2 ∧ p.rows = [1, 2]
        ∧ p.summary.isSome ∧ p.summary ≠ Summary.compute bytewise p.rows
        ∧ (Patch.rows p).statistic "A" .max = .ok (some (.ofNat 1))
        ∧ ((Patch.rows p).computeSummary e >>= fun q => q.statistic "A" .max)
          = .ok (some (.ofNat 2)) := by
  intro e
  refine ⟨(Schema.Built.vacant 1).afterSets _, by decide, ?_⟩
  obtain ⟨p, hp⟩ : ∃ p, RowPatch.ofRows bytewise [1] = .ok p := ⟨_, rfl⟩
  obtain ⟨q, hq⟩ : ∃ q, p.add { schema := bytewise, data := [2] } = .ok q := by
    cases hp
    exact ⟨_, rfl⟩
  have hrun : Run e bytewise (.rows q) p.count := (Run.ofRows hp).add rfl hq
  cases hp
  cases hq
  exact ⟨_, hrun, by decide, by decide, by decide, by decide +kernel, by decide +kernel,
    by decide +kernel⟩

end Patch

end PointPatch
