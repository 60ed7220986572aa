/-
PointPatch/Proofs/Patch/Concatenation.lean

Merging is concatenation.

Three operations make a patch of rows out of others: patches of one schema are
merged, points are picked out by a condition, points are put into a list.  Of
each it is said once which rows the result has, and that the rest of it, except
for the bounds, is what `whole` makes of these rows (`exists_merge_whole`,
`filter_eq_whole`, `exists_ofPoints_whole`).

The laws are then laws of lists: merging merged patches joins joined lists,
picking rows out of joined lists is picking them out of each, and the rows of
points that follow each other follow each other
(`merge_is_concatenation`).  Bounds have a law of their own.  Those of a merged
patch are merged from the bounds that its parts have, whether or not these are
the bounds of their rows.
-/
import PointPatch.Patch.Filter
import PointPatch.Proofs.Patch.Consistency

namespace PointPatch

namespace RowPatch

variable {schema : Schema} {rows : List UInt8}

/-- The patch of a buffer of whole rows, with the bounds and the summary that they have. -/
def whole (schema : Schema) (rows : List UInt8) : RowPatch :=
  ofWhole schema (rows.length / schema.size) rows

/-- The patch with its bounds left out. -/
def unbounded (p : RowPatch) : RowPatch := { p with bounds := .empty }

/-- What is like the patch of some rows up to its bounds has these rows, and their summary. -/
theorem parts_of_unbounded {p : RowPatch} (h : p.unbounded = (whole schema rows).unbounded) :
    p.schema = schema ∧ p.count = rows.length / schema.size ∧ p.rows = rows
      ∧ p.summary = Summary.compute schema rows :=
  ⟨congrArg (fun q : RowPatch => q.schema) h, congrArg (fun q : RowPatch => q.count) h,
    congrArg RowPatch.rows h, congrArg (fun q : RowPatch => q.summary) h⟩

theorem ofRows_eq_whole (hsize : 0 < schema.size) (hrows : schema.size ∣ rows.length) :
    ofRows schema rows = .ok (whole schema rows) := by
  apply ofRows_eq_ok_iff.2
  refine ⟨_, Schema.countRows_eq_ok_iff.2 ⟨?_, ?_⟩, rfl⟩
  · exact (Nat.mul_div_cancel' hrows).symm
  · exact fun h => absurd h (Nat.ne_of_gt hsize)

/-! ### Rows picked out -/

/-- The rows of a buffer in which a dimension meets a condition. -/
def keep (schema : Schema) (d : Dimension) (c : Condition) (rows : List UInt8) : List UInt8 :=
  ((chunks schema.size rows).filter fun row => c.holds (d.read row)).flatten

theorem dvd_length_keep (d : Dimension) (c : Condition) (rows : List UInt8) :
    schema.size ∣ (keep schema d c rows).length := by
  have hpieces : ∀ row ∈ (chunks schema.size rows).filter fun row => c.holds (d.read row),
      row.length = schema.size :=
    fun row hrow => length_of_mem_chunks (List.mem_of_mem_filter hrow)
  rw [keep, length_flatten_of_forall hpieces]
  apply Nat.dvd_mul_left

theorem keep_append (hsize : 0 < schema.size) (hrows : schema.size ∣ rows.length) (d : Dimension)
    (c : Condition) (more : List UInt8) :
    keep schema d c (rows ++ more) = keep schema d c rows ++ keep schema d c more := by
  rw [keep, chunks_append hsize hrows, List.filter_append, List.flatten_append]
  rfl

/-- Rows are picked out of joined buffers as they are out of each. -/
theorem keep_flatMap {α : Type} {f : α → List UInt8} {xs : List α} (hsize : 0 < schema.size)
    (hf : ∀ x ∈ xs, schema.size ∣ (f x).length) (d : Dimension) (c : Condition) :
    keep schema d c (xs.flatMap f) = xs.flatMap fun x => keep schema d c (f x) := by
  induction xs with
  | nil => simp [keep]
  | cons x xs ih =>
    rw [List.forall_mem_cons] at hf
    rw [List.flatMap_cons, keep_append hsize hf.1, ih hf.2, List.flatMap_cons]

/-! ### Points -/

/-- Where there is room for some points, they are added at the end. -/
theorem exists_addAll {p : RowPatch} {points : PointList}
    (hroom : p.count + points.length ≤ p.capacity)
    (hrows : p.rows.length = p.schema.size * p.count)
    (hpoints : ∀ point ∈ points, point.schema = p.schema ∧ point.data.length = p.schema.size) :
    ∃ bounds, points.foldlM add p = .ok { p with
      count := p.count + points.length
      bounds
      rows := p.rows ++ points.flatMap Point.data } := by
  induction points generalizing p with
  | nil =>
    refine ⟨p.bounds, ?_⟩
    rw [List.flatMap_nil, List.append_nil]
    rfl
  | cons point points ih =>
    rw [List.forall_mem_cons] at hpoints
    rw [List.length_cons] at hroom
    obtain ⟨⟨hschema, hlength⟩, hpoints⟩ := hpoints
    obtain ⟨q, hq⟩ := exists_add hrows (by rw [hschema]) hlength
    obtain ⟨-, r, hr, hparts⟩ := parts_of_add hq
    -- no room has to be made
    rw [makeRoom, if_pos (show p.count ≠ p.capacity by omega)] at hr
    cases hr
    have hrest : ∃ bounds, points.foldlM add q = .ok { q with
        count := q.count + points.length
        bounds
        rows := q.rows ++ points.flatMap Point.data } := by
      apply ih
      · rw [hparts]
        show p.count + 1 + points.length ≤ p.capacity
        omega
      · rw [hparts]
        show (p.rows ++ point.data).length = p.schema.size * (p.count + 1)
        rw [List.length_append, hrows, hlength, Nat.mul_succ]
      · rw [hparts]
        exact hpoints
    obtain ⟨bounds, hrest⟩ := hrest
    refine ⟨bounds, ?_⟩
    rw [List.foldlM_cons, hq, ok_bind, hrest, hparts]
    dsimp only
    rw [List.length_cons, List.flatMap_cons, List.append_assoc, Nat.add_assoc, Nat.add_comm 1]

/-- The patch of some points is that of their bytes. -/
theorem exists_ofPoints_whole {points : PointList} (hsize : 0 < schema.size) (hne : points ≠ [])
    (hpoints : ∀ point ∈ points, point.schema = schema ∧ point.data.length = schema.size) :
    ∃ p, ofPoints points = .ok p
      ∧ p.unbounded = (whole schema (points.flatMap Point.data)).unbounded := by
  obtain ⟨first, rest, rfl⟩ := List.exists_cons_of_ne_nil hne
  obtain rfl := (hpoints first List.mem_cons_self).1
  have hcount : ((first :: rest).flatMap Point.data).length / first.schema.size
      = (first :: rest).length := by
    rw [length_flatMap_of_forall fun point hpoint => (hpoints point hpoint).2,
      Nat.mul_div_cancel _ hsize]
  obtain ⟨bounds, hadded⟩ := exists_addAll (p := vacant first.schema (first :: rest).length)
    (Nat.le_of_eq (Nat.zero_add _)) (Nat.mul_zero _).symm hpoints
  refine ⟨_, bind_eq_ok_iff.2 ⟨_, hadded, rfl⟩, ?_⟩
  rw [whole, hcount]
  simp [computeSummary, unbounded, ofWhole, vacant]

end RowPatch

namespace Patch

variable {e : Engine} {schema : Schema} {p : Patch} {ps : List Patch}

/-! ### Patches of one schema -/

/-- A well-formed patch of a given schema. -/
structure IsFrom (e : Engine) (schema : Schema) (p : Patch) : Prop where
  schema_eq : p.schema = schema
  wellFormed : p.WellFormed e

theorem IsFrom.exists_toRows (hb : schema.Built) (h : p.IsFrom e schema) :
    ∃ raw, p.toRows e = .ok raw :=
  (h.wellFormed.exists_toRows (h.schema_eq ▸ hb)).imp fun _ hraw => hraw.1

theorem IsFrom.length_rowBytes (hb : schema.Built) (h : p.IsFrom e schema) :
    (p.rowBytes e).length = schema.size * p.count := by
  obtain ⟨raw, hraw⟩ := h.exists_toRows hb
  rw [rowBytes_eq hraw, h.wellFormed.length_of_toRows (h.schema_eq ▸ hb) hraw, h.schema_eq]

theorem IsFrom.dvd_length_rowBytes (hb : schema.Built) (h : p.IsFrom e schema) :
    schema.size ∣ (p.rowBytes e).length :=
  ⟨p.count, h.length_rowBytes hb⟩

/-- Whole rows make a well-formed patch, whatever its bounds are. -/
theorem isFrom_rows {raw : RowPatch} {rows : List UInt8} (hrows : schema.size ∣ rows.length)
    (h : raw.unbounded = (RowPatch.whole schema rows).unbounded) :
    (Patch.rows raw).IsFrom e schema := by
  obtain ⟨hschema, hcount, hbytes, -⟩ := RowPatch.parts_of_unbounded h
  refine ⟨hschema, ?_⟩
  show raw.rows.length = raw.schema.size * raw.count
  rw [hschema, hcount, hbytes, Nat.mul_div_cancel' hrows]

/-! ### What merging and picking out give -/

/-- Patches of one schema are merged to the patch of their rows, one behind the other. -/
theorem exists_merge_whole (hb : schema.Built) (hsize : 0 < schema.size) (hne : ps ≠ [])
    (hps : ∀ p ∈ ps, p.IsFrom e schema) :
    ∃ m, merge e ps = .ok m ∧ m.unbounded = (RowPatch.whole schema (ps.flatMap (rowBytes e))).unbounded
      ∧ m.bounds = (ps.map Patch.bounds).foldl Bounds.merge .empty := by
  obtain ⟨first, rest, rfl⟩ := List.exists_cons_of_ne_nil hne
  have hschema := (hps first List.mem_cons_self).schema_eq
  have hid : ∀ p ∈ first :: rest, p.schema.pcid = first.schema.pcid := by
    intro p hp
    rw [(hps p hp).schema_eq, hschema]
  have hcount : ((first :: rest).flatMap (rowBytes e)).length / schema.size
      = ((first :: rest).map count).sum := by
    rw [length_flatMap_rowBytes fun p hp => (hps p hp).length_rowBytes hb,
      Nat.mul_div_cancel_left _ hsize]
  refine ⟨_, merge_eq_ok hid fun p hp => (hps p hp).exists_toRows hb, ?_, rfl⟩
  rw [RowPatch.whole, hcount, hschema]
  rfl

/-- The merged patch has the rows of its parts, each once, in the order of the list. -/
theorem exists_merge_rows (hb : schema.Built) (hsize : 0 < schema.size) (hne : ps ≠ [])
    (hps : ∀ p ∈ ps, p.IsFrom e schema) :
    ∃ raws m, ps.Forall₂ (fun p raw => p.toRows e = .ok raw) raws ∧ merge e ps = .ok m
      ∧ m.schema = schema ∧ m.rows = raws.flatMap RowPatch.rows
      ∧ m.rows.length = schema.size * m.count ∧ m.count = (chunks schema.size m.rows).length
      ∧ m.summary = Summary.compute schema m.rows
      ∧ m.bounds = (ps.map Patch.bounds).foldl Bounds.merge .empty := by
  obtain ⟨raws, hraws⟩ := exists_forall₂ fun p hp => (hps p hp).exists_toRows hb
  obtain ⟨m, hm, hwhole, hbounds⟩ := exists_merge_whole hb hsize hne hps
  have hbytes : raws.flatMap RowPatch.rows = ps.flatMap (rowBytes e) :=
    (flatMap_congr_forall₂ (hraws.imp fun p raw hraw => rowBytes_eq hraw)).symm
  obtain ⟨hschema, hcount, hrows, hsummary⟩ := RowPatch.parts_of_unbounded hwhole
  have hdvd : schema.size ∣ (ps.flatMap (rowBytes e)).length :=
    ⟨_, length_flatMap_rowBytes fun p hp => (hps p hp).length_rowBytes hb⟩
  refine ⟨raws, m, hraws, hm, hschema, ?_, ?_, ?_, ?_, hbounds⟩
  · rw [hrows, hbytes]
  · rw [hrows, hcount, Nat.mul_div_cancel' hdvd]
  · rw [hcount, hrows, length_chunks]
  · rw [hsummary, hrows]

/-- What is picked out of a patch is the patch of the rows that are kept. -/
theorem filter_eq_whole_of_toRows {raw : RowPatch} (hsize : 0 < p.schema.size)
    (hraw : p.toRows e = .ok raw) {name : String} {d : Dimension}
    (hd : p.schema.dimensionNamed name = .ok d) (c : Condition) :
    p.filter e name c = .ok (RowPatch.whole p.schema (RowPatch.keep p.schema d c raw.rows)) := by
  rw [filter, hd, ok_bind, hraw, ok_bind]
  show RowPatch.ofRows raw.schema (RowPatch.keep raw.schema d c raw.rows) = _
  rw [schema_of_toRows hraw]
  exact RowPatch.ofRows_eq_whole hsize (RowPatch.dvd_length_keep d c raw.rows)

theorem filter_eq_whole (hb : schema.Built) (hsize : 0 < schema.size) (h : p.IsFrom e schema)
    {name : String} {d : Dimension} (hd : schema.dimensionNamed name = .ok d) (c : Condition) :
    p.filter e name c = .ok (RowPatch.whole schema (RowPatch.keep schema d c (p.rowBytes e))) := by
  obtain ⟨raw, hraw⟩ := h.exists_toRows hb
  obtain rfl := h.schema_eq
  rw [rowBytes_eq hraw]
  exact filter_eq_whole_of_toRows hsize hraw hd c

theorem filter_eq_error {name : String} {fault : Fault}
    (h : p.schema.dimensionNamed name = .error fault) (c : Condition) :
    p.filter e name c = .error fault := by
  rw [filter, h]
  rfl

/-! ### Laws -/

/-- Merged patches are merged as the patches that they are merged from. -/
theorem exists_merge_merged (hb : schema.Built) (hsize : 0 < schema.size)
    {pss : List (List Patch)} (hne : pss ≠ [])
    (hpss : ∀ ps ∈ pss, ps ≠ [] ∧ ∀ p ∈ ps, p.IsFrom e schema) :
    ∃ ms m m', pss.mapM (merge e) = .ok ms ∧ merge e (ms.map .rows) = .ok m
      ∧ merge e pss.flatten = .ok m' ∧ m.unbounded = m'.unbounded := by
  have hmerged : ∀ ps ∈ pss, ∃ m, merge e ps = .ok m
      ∧ m.unbounded = (RowPatch.whole schema (ps.flatMap (rowBytes e))).unbounded := by
    intro ps hps
    obtain ⟨m, hm, hwhole, -⟩ := exists_merge_whole hb hsize (hpss ps hps).1 (hpss ps hps).2
    exact ⟨m, hm, hwhole⟩
  obtain ⟨ms, hms⟩ := exists_forall₂ hmerged
  obtain ⟨hall, hwhole⟩ := forall₂_and_iff.1 hms
  -- each merged patch is one of the schema, with the rows of its parts
  have hfrom : ∀ q ∈ ms.map Patch.rows, q.IsFrom e schema := by
    refine List.forall_mem_map.2 fun m hm => ?_
    obtain ⟨ps, hps, hm⟩ := exists_of_mem_right hwhole hm
    refine isFrom_rows ⟨(ps.map count).sum, ?_⟩ hm
    exact length_flatMap_rowBytes fun p hp => ((hpss ps hps).2 p hp).length_rowBytes hb
  have hrows : (ms.map Patch.rows).flatMap (rowBytes e) = pss.flatten.flatMap (rowBytes e) := by
    rw [List.flatMap_map, ← List.flatMap_id, List.flatMap_assoc]
    refine (flatMap_congr_forall₂ (hwhole.imp fun ps m hm => ?_)).symm
    exact (RowPatch.parts_of_unbounded hm).2.2.1.symm
  have hms_ne : ms.map Patch.rows ≠ [] := by
    intro hnil
    rw [List.map_eq_nil_iff.1 hnil, List.forall₂_nil_right_iff] at hms
    exact hne hms
  have hflat_ne : pss.flatten ≠ [] := by
    obtain ⟨ps, rest, rfl⟩ := List.exists_cons_of_ne_nil hne
    rw [List.flatten_cons]
    exact List.append_ne_nil_of_left_ne_nil (hpss ps List.mem_cons_self).1 _
  have hflat : ∀ p ∈ pss.flatten, p.IsFrom e schema := by
    intro p hp
    obtain ⟨ps, hps, hp⟩ := List.mem_flatten.1 hp
    exact (hpss ps hps).2 p hp
  obtain ⟨m, hm, hwhole, -⟩ := exists_merge_whole hb hsize hms_ne hfrom
  obtain ⟨m', hm', hwhole', -⟩ := exists_merge_whole hb hsize hflat_ne hflat
  refine ⟨ms, m, m', mapM_eq_ok_iff.2 hall, hm, hm', ?_⟩
  rw [hwhole, hwhole', hrows]

/-- Points of a name that the schema knows are picked out of merged patches as they are out of each
patch. -/
theorem exists_filter_merged (hb : schema.Built) (hsize : 0 < schema.size) (hne : ps ≠ [])
    (hps : ∀ p ∈ ps, p.IsFrom e schema) {name : String} {d : Dimension}
    (hd : schema.dimensionNamed name = .ok d) (c : Condition) :
    ∃ m q qs m', merge e ps = .ok m ∧ filter e name c (.rows m) = .ok q
      ∧ ps.mapM (filter e name c) = .ok qs ∧ merge e (qs.map .rows) = .ok m'
      ∧ q.unbounded = m'.unbounded := by
  let part (p : Patch) : RowPatch :=
    RowPatch.whole schema (RowPatch.keep schema d c (p.rowBytes e))
  have hdvd : ∀ p ∈ ps, schema.size ∣ (p.rowBytes e).length :=
    fun p hp => (hps p hp).dvd_length_rowBytes hb
  have hparts : ps.mapM (filter e name c) = .ok (ps.map part) :=
    mapM_eq_ok_map fun p hp => filter_eq_whole hb hsize (hps p hp) hd c
  obtain ⟨m, hm, hwhole, -⟩ := exists_merge_whole hb hsize hne hps
  have hfrom : (Patch.rows m).IsFrom e schema := by
    apply isFrom_rows _ hwhole
    exact ⟨_, length_flatMap_rowBytes fun p hp => (hps p hp).length_rowBytes hb⟩
  have hkept := filter_eq_whole hb hsize hfrom hd c
  have hmrows : (Patch.rows m).rowBytes e = ps.flatMap (rowBytes e) :=
    (RowPatch.parts_of_unbounded hwhole).2.2.1
  rw [hmrows, RowPatch.keep_flatMap hsize hdvd] at hkept
  -- and the parts that are merged have the rows that are kept of each
  have hfrom' : ∀ q ∈ (ps.map part).map Patch.rows, q.IsFrom e schema := by
    refine List.forall_mem_map.2 (List.forall_mem_map.2 fun p _ => ?_)
    exact isFrom_rows (RowPatch.dvd_length_keep d c _) rfl
  have hne' : (ps.map part).map Patch.rows ≠ [] := by simpa using hne
  obtain ⟨m', hm', hwhole', -⟩ := exists_merge_whole hb hsize hne' hfrom'
  refine ⟨m, _, _, m', hm, hkept, hparts, hm', ?_⟩
  rw [hwhole', List.flatMap_map, List.flatMap_map]
  rfl

/-- Points are picked out of merged patches with the outcome, be it a fault, of picking them out of
each patch and merging these. -/
theorem filter_merged_eq (hb : schema.Built) (hsize : 0 < schema.size) (hne : ps ≠ [])
    (hps : ∀ p ∈ ps, p.IsFrom e schema) (name : String) (c : Condition) :
    (merge e ps >>= fun m => filter e name c (.rows m)).map RowPatch.unbounded
      = (ps.mapM (filter e name c) >>= fun qs => merge e (qs.map .rows)).map
          RowPatch.unbounded := by
  rcases hd : schema.dimensionNamed name with fault | d
  · -- a name that the schema does not know is a fault of the first patch already
    obtain ⟨m, hm, hwhole, -⟩ := exists_merge_whole hb hsize hne hps
    have hschema := (RowPatch.parts_of_unbounded hwhole).1
    have hmerged : filter e name c (.rows m) = .error fault :=
      filter_eq_error (p := .rows m) ((congrArg (Schema.dimensionNamed · name) hschema).trans hd) c
    obtain ⟨first, rest, rfl⟩ := List.exists_cons_of_ne_nil hne
    have hfirst : filter e name c first = .error fault := by
      apply filter_eq_error
      rw [(hps first List.mem_cons_self).schema_eq, hd]
    rw [hm, ok_bind, hmerged, List.mapM_cons, hfirst]
    rfl
  · obtain ⟨m, q, qs, m', hm, hq, hqs, hm', hsame⟩ := exists_filter_merged hb hsize hne hps hd c
    rw [hm, ok_bind, hq, hqs, ok_bind, hm']
    exact congrArg Except.ok hsame

/-- The patch of points that follow each other is merged from those of the ones and the others. -/
theorem exists_ofPoints_append (hb : schema.Built) (hsize : 0 < schema.size)
    {these those : PointList} (hthese : these ≠ []) (hthose : those ≠ [])
    (hpoints : ∀ point ∈ these ++ those,
      point.schema = schema ∧ point.data.length = schema.size) :
    ∃ p q r m, RowPatch.ofPoints (these ++ those) = .ok p ∧ RowPatch.ofPoints these = .ok q
      ∧ RowPatch.ofPoints those = .ok r ∧ merge e [.rows q, .rows r] = .ok m
      ∧ p.unbounded = m.unbounded := by
  have hdvd : ∀ {points : PointList},
      (∀ point ∈ points, point.schema = schema ∧ point.data.length = schema.size) →
        schema.size ∣ (points.flatMap Point.data).length := by
    intro points hpoints
    rw [length_flatMap_of_forall fun point hpoint => (hpoints point hpoint).2]
    apply Nat.dvd_mul_left
  obtain ⟨hleft, hright⟩ := List.forall_mem_append.1 hpoints
  obtain ⟨p, hp, hpwhole⟩ :=
    RowPatch.exists_ofPoints_whole hsize (List.append_ne_nil_of_left_ne_nil hthese _) hpoints
  obtain ⟨q, hq, hqwhole⟩ := RowPatch.exists_ofPoints_whole hsize hthese hleft
  obtain ⟨r, hr, hrwhole⟩ := RowPatch.exists_ofPoints_whole hsize hthose hright
  have hfrom : ∀ p ∈ [Patch.rows q, .rows r], p.IsFrom e schema := by
    simp only [List.forall_mem_cons]
    exact ⟨isFrom_rows (hdvd hleft) hqwhole, isFrom_rows (hdvd hright) hrwhole, by simp⟩
  obtain ⟨m, hm, hmwhole, -⟩ := exists_merge_whole hb hsize (by simp) hfrom
  refine ⟨p, q, r, m, hp, hq, hr, hm, ?_⟩
  obtain ⟨-, -, hqrows, -⟩ := RowPatch.parts_of_unbounded hqwhole
  obtain ⟨-, -, hrrows, -⟩ := RowPatch.parts_of_unbounded hrwhole
  rw [hpwhole, hmwhole, List.flatMap_cons, List.flatMap_singleton, List.flatMap_append]
  show _ = (RowPatch.whole schema (q.rows ++ r.rows)).unbounded
  rw [hqrows, hrrows]

/-- Patches of one schema, in whatever forms, are merged to the patch of their rows in order, with
the bounds that theirs are merged to.  Up to bounds, merging merged patches is merging all their
parts, points are picked out of merged patches as they are out of each, and the patch of points
that follow each other is merged from the patches of the ones and of the others. -/
theorem merge_is_concatenation (hb : schema.Built) (hsize : 0 < schema.size) :
    (∀ ps : List Patch, ps ≠ [] → (∀ p ∈ ps, p.IsFrom e schema) →
      ∃ raws m, ps.Forall₂ (fun p raw => p.toRows e = .ok raw) raws ∧ merge e ps = .ok m
        ∧ m.schema = schema ∧ m.rows = raws.flatMap RowPatch.rows
        ∧ m.rows.length = schema.size * m.count ∧ m.count = (chunks schema.size m.rows).length
        ∧ m.summary = Summary.compute schema m.rows
        ∧ m.bounds = (ps.map Patch.bounds).foldl Bounds.merge .empty)
    ∧ (∀ pss : List (List Patch), pss ≠ [] →
        (∀ ps ∈ pss, ps ≠ [] ∧ ∀ p ∈ ps, p.IsFrom e schema) →
        ∃ ms m m', pss.mapM (merge e) = .ok ms ∧ merge e (ms.map .rows) = .ok m
          ∧ merge e pss.flatten = .ok m' ∧ m.unbounded = m'.unbounded)
    ∧ (∀ (ps : List Patch) name c, ps ≠ [] → (∀ p ∈ ps, p.IsFrom e schema) →
        (merge e ps >>= fun m => filter e name c (.rows m)).map RowPatch.unbounded
            = (ps.mapM (filter e name c) >>= fun qs => merge e (qs.map .rows)).map
                RowPatch.unbounded
          ∧ ∀ d, schema.dimensionNamed name = .ok d →
              ∃ q, (merge e ps >>= fun m => filter e name c (.rows m)) = .ok q)
    ∧ ∀ these those : PointList, these ≠ [] → those ≠ [] →
        (∀ point ∈ these ++ those, point.schema = schema ∧ point.data.length = schema.size) →
        ∃ p q r m, RowPatch.ofPoints (these ++ those) = .ok p ∧ RowPatch.ofPoints these = .ok q
          ∧ RowPatch.ofPoints those = .ok r ∧ merge e [.rows q, .rows r] = .ok m
          ∧ p.unbounded = m.unbounded := by
  refine ⟨fun ps hne hps => exists_merge_rows hb hsize hne hps,
    fun pss hne hpss => exists_merge_merged hb hsize hne hpss, ?_,
    fun _ _ hthese hthose hpoints => exists_ofPoints_append hb hsize hthese hthose hpoints⟩
  intro ps name c hne hps
  refine ⟨filter_merged_eq hb hsize hne hps name c, ?_⟩
  intro d hd
  obtain ⟨m, q, -, -, hm, hq, -⟩ := exists_filter_merged hb hsize hne hps hd c
  exact ⟨q, bind_eq_ok_iff.2 ⟨m, hm, hq⟩⟩

/-- A codec that stores rows as they are. -/
def verbatim : BlobCodec where
  name := "verbatim"
  encode _ rows _ := .ok rows
  decode _ blob _ := .ok blob

/-- A point in the layout of another patch, held as a blob. -/
def closedBlob : BlobPatch where
  schema := openEnded.schema
  count := 1
  blob := [5, 6, 0]

/-- A row, two points in columns and a blob make four points.  Those of them with a value above
three in the first dimension are the same whether they are picked out first or last. -/
theorem merge_three_forms :
    let e : Engine := { deflate := Deflate.codec, blobCodec? := some verbatim }
    let ps : List Patch := [.rows closedRow, .columns openEnded, .blob closedBlob]
    let point : Point := { schema := openEnded.schema, data := [5, 6, 0] }
    (∃ m, merge e ps = .ok m ∧ m.rows = [7, 8, 0, 1, 3, 0, 2, 4, 0, 5, 6, 0])
      ∧ (∃ ms m m', [ps, ps].mapM (merge e) = .ok ms ∧ merge e (ms.map .rows) = .ok m
          ∧ merge e (ps ++ ps) = .ok m' ∧ m.unbounded = m'.unbounded)
      ∧ (∃ q, (merge e ps >>= fun m => filter e "a" (.above (Double.ofNat 3)) (.rows m)) = .ok q)
      ∧ ∃ p q r m, RowPatch.ofPoints [point, point, point] = .ok p
          ∧ RowPatch.ofPoints [point] = .ok q ∧ RowPatch.ofPoints [point, point] = .ok r
          ∧ merge e [.rows q, .rows r] = .ok m ∧ p.unbounded = m.unbounded := by
  intro e ps point
  have hcolumns : (Patch.columns openEnded).toRows e
      = .ok (RowPatch.ofHeader openEnded.toPatchHeader [1, 3, 0, 2, 4, 0]) := by
    decide
  have htypes : openEnded.schema.dimensions.Forall₂ (fun d c => c.type = d.type) openEnded.columns :=
    .cons rfl (.cons rfl .nil)
  have hps : ∀ p ∈ ps, p.IsFrom e openEnded.schema := by
    simp only [ps, List.forall_mem_cons]
    exact ⟨⟨rfl, rfl⟩, ⟨rfl, ColumnPatch.wellFormed_of_toRows htypes hcolumns⟩,
      ⟨rfl, verbatim, _, rfl, rfl, rfl⟩, by simp⟩
  have hb : openEnded.schema.Built := (Schema.Built.vacant 3).afterSets _
  obtain ⟨hrows, hmerged, hpicked, hpoints⟩ :=
    merge_is_concatenation (e := e) hb (show 0 < openEnded.schema.size by decide)
  refine ⟨?_, ?_, ?_, ?_⟩
  · obtain ⟨raws, m, hraws, hm, -, hbytes, -⟩ := hrows ps (by simp [ps]) hps
    simp only [ps] at hraws
    rcases hraws with _ | ⟨hrow, _ | ⟨hwoven, _ | ⟨hunpacked, _ | _⟩⟩⟩
    cases hrow
    cases hcolumns.symm.trans hwoven
    cases hunpacked
    exact ⟨m, hm, hbytes⟩
  · apply hmerged [ps, ps] (by simp)
    simp only [List.forall_mem_cons]
    exact ⟨⟨by simp [ps], hps⟩, ⟨by simp [ps], hps⟩, by simp⟩
  · exact (hpicked ps "a" _ (by simp [ps]) hps).2 _ rfl
  · apply hpoints [point] [point, point] (by simp) (by simp)
    simp only [List.cons_append, List.nil_append, List.forall_mem_cons]
    exact ⟨⟨rfl, rfl⟩, ⟨rfl, rfl⟩, ⟨rfl, rfl⟩, by simp⟩

end Patch

end PointPatch
