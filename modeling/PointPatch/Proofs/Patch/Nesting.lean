/-
PointPatch/Proofs/Patch/Nesting.lean

Patches taken apart into points, and points put together to patches.

Points of one schema are put together one by one.  There is room for all of
them from the start, every one widens the bounds by coordinates that it looks up
itself, and the summary is computed at the end.  What comes of it is the patch
that is made of all their bytes at once (`RowPatch.ofPoints_eq_ofWhole`).

A patch is taken apart into the rows that it is held by once it has been brought
to rows (`Patch.unnest`).  So one way and back again gives the rows of a patch,
with the bounds and the summary that are computed from them, and the other way
and back the points, each with bytes of its own (`Patch.unnest_inverse`).  Rows
without bytes cannot be told apart in a buffer: a patch of such points is taken
apart into none (`Patch.unnest_of_widthless`).
-/
import PointPatch.Proofs.Patch.Concatenation
import PointPatch.Proofs.Patch.Description

namespace PointPatch

/-! ### Points put together -/

namespace RowPatch

variable {schema : Schema} {points : PointList} {raw : RowPatch}

/-- Points that are put together one by one make the patch of all their bytes. -/
theorem ofPoints_eq_ofWhole (hne : points ≠ [])
    (hpoints : ∀ point ∈ points, point.schema = schema ∧ point.data.length = schema.size) :
    ofPoints points = .ok (ofWhole schema points.length (points.flatMap Point.data)) := by
  obtain ⟨first, rest, rfl⟩ := List.exists_cons_of_ne_nil hne
  obtain rfl := (hpoints first List.mem_cons_self).1
  obtain ⟨bounds, hadded⟩ := exists_addAll (p := vacant first.schema (first :: rest).length)
    (Nat.le_of_eq (Nat.zero_add _)) (Nat.mul_zero _).symm hpoints
  -- the bounds have been those of the rows all the time
  have hdescribed := (Patch.isDescribed_vacant (e := { deflate := Deflate.codec }) first.schema
    (first :: rest).length).addAll (fun point hpoint => (hpoints point hpoint).1) hadded
  have hbounds := hdescribed.bounds_eq _ rfl
  obtain rfl : bounds = .ofRows first.schema ((first :: rest).flatMap Point.data) := hbounds
  rw [ofPoints, hadded]
  simp [ok_bind, computeSummary, ofWhole, vacant, pure, Except.pure]

theorem length_points (raw : RowPatch) : raw.points.length = raw.rows.length / raw.schema.size := by
  rw [points, List.length_map, length_chunks]

/-- The points of a patch are points of its schema. -/
theorem of_mem_points {point : Point} (h : point ∈ raw.points) :
    point.schema = raw.schema ∧ point.data.length = raw.schema.size := by
  obtain ⟨row, hrow, rfl⟩ := List.mem_map.1 h
  exact ⟨rfl, length_of_mem_chunks hrow⟩

/-- The bytes of the points of a patch are its rows. -/
theorem flatMap_points (hrows : raw.rows.length % raw.schema.size = 0) :
    raw.points.flatMap Point.data = raw.rows := by
  rw [points, List.flatMap_map, List.flatMap_id']
  exact flatten_chunks hrows

/-- The points of a patch that was made of points are these, each with bytes of its own. -/
theorem points_ofWhole (hsize : 0 < schema.size) {count : Nat}
    (hpoints : ∀ point ∈ points, point.schema = schema ∧ point.data.length = schema.size) :
    (ofWhole schema count (points.flatMap Point.data)).points = points.map Point.own := by
  show (chunks schema.size (points.flatMap Point.data)).map _ = _
  rw [chunks_flatMap hsize fun point hpoint => (hpoints point hpoint).2, List.map_map]
  refine List.map_congr_left fun point hpoint => ?_
  obtain ⟨rfl, -⟩ := hpoints point hpoint
  rfl

end RowPatch

namespace Patch

variable {e : Engine} {schema : Schema} {p : Patch} {raw : RowPatch}

theorem unnest_eq (h : p.toRows e = .ok raw) : p.unnest e = .ok raw.points :=
  map_eq_ok_iff.2 ⟨raw, h, rfl⟩

/-- A patch that is taken apart and put together again is that of its rows. -/
theorem WellFormed.nest_unnest (hb : p.schema.Built) (hp : p.WellFormed e)
    (hsize : 0 < p.schema.size) (hcount : 0 < p.count) :
    ∃ raw, p.toRows e = .ok raw ∧ p.unnest e = .ok raw.points ∧ raw.points.length = p.count
      ∧ RowPatch.ofPoints raw.points = .ok (RowPatch.ofWhole p.schema p.count raw.rows) := by
  obtain ⟨raw, hraw, hlength⟩ := hp.exists_toRows hb
  have hschema : raw.schema = p.schema := schema_of_toRows hraw
  have hpoints : raw.points.length = p.count := by
    rw [RowPatch.length_points, hschema, hlength, Nat.mul_div_cancel_left _ hsize]
  have hne : raw.points ≠ [] := List.ne_nil_of_length_pos (hpoints.symm ▸ hcount)
  have hwhole : raw.rows.length % raw.schema.size = 0 := by
    rw [hschema, hlength, Nat.mul_mod_right]
  refine ⟨raw, hraw, unnest_eq hraw, hpoints, ?_⟩
  rw [RowPatch.ofPoints_eq_ofWhole hne fun point hpoint => RowPatch.of_mem_points hpoint, hpoints,
    hschema, RowPatch.flatMap_points hwhole]

/-- Points that are put together and taken apart again are the points, each with bytes of its
own. -/
theorem unnest_nest {points : PointList} (hne : points ≠ []) (hsize : 0 < schema.size)
    (hpoints : ∀ point ∈ points, point.schema = schema ∧ point.data.length = schema.size) :
    ∃ q, RowPatch.ofPoints points = .ok q ∧ (Patch.rows q).unnest e = .ok (points.map Point.own) := by
  refine ⟨_, RowPatch.ofPoints_eq_ofWhole hne hpoints, ?_⟩
  rw [unnest_eq rfl, RowPatch.points_ofWhole hsize hpoints]

/-- Points without bytes are counted when they are put together, and are lost when they are taken
apart. -/
theorem unnest_of_widthless {points : PointList} (hne : points ≠ []) (hsize : schema.size = 0)
    (hpoints : ∀ point ∈ points, point.schema = schema ∧ point.data.length = schema.size) :
    ∃ q, RowPatch.ofPoints points = .ok q ∧ q.count = points.length
      ∧ (Patch.rows q).unnest e = .ok [] := by
  refine ⟨_, RowPatch.ofPoints_eq_ofWhole hne hpoints, rfl, ?_⟩
  rw [unnest_eq rfl, Except.ok.injEq]
  apply List.eq_nil_of_length_eq_zero
  rw [RowPatch.length_points]
  show _ / schema.size = 0
  rw [hsize, Nat.div_zero]

/-- Taking a patch apart into points and putting points together are inverse to each other, where
points have bytes: a patch of any form gives its rows again, with the bounds and the summary that are
computed from them; and points of one schema come back in their order, all of them.  Of points
without bytes none comes back. -/
theorem unnest_inverse :
    (∀ (e : Engine) (p : Patch), p.schema.Built → p.WellFormed e → 0 < p.schema.size →
      0 < p.count → ∃ raw points q, p.toRows e = .ok raw ∧ p.unnest e = .ok points
        ∧ points.length = p.count ∧ RowPatch.ofPoints points = .ok q
        ∧ q.schema = p.schema ∧ q.count = p.count ∧ q.rows = raw.rows
        ∧ q.bounds = raw.computeBounds.bounds ∧ q.summary = raw.computeSummary.summary)
    ∧ ∀ (e : Engine) (schema : Schema) (points : PointList), points ≠ [] →
      (∀ point ∈ points, point.schema = schema ∧ point.data.length = schema.size) →
      ∃ q, RowPatch.ofPoints points = .ok q ∧ q.count = points.length
        ∧ ∃ again, (Patch.rows q).unnest e = .ok again
          ∧ (0 < schema.size → again = points.map Point.own
              ∧ again.map Point.data = points.map Point.data)
          ∧ (schema.size = 0 → again = []) := by
  constructor
  · intro e p hb hp hsize hcount
    obtain ⟨raw, hraw, hunnest, hlength, hnest⟩ := hp.nest_unnest hb hsize hcount
    refine ⟨raw, raw.points, _, hraw, hunnest, hlength, hnest, rfl, rfl, rfl, ?_, ?_⟩
    · show Bounds.ofRows p.schema raw.rows = .ofRows raw.schema raw.rows
      rw [schema_of_toRows hraw]
    · show Summary.compute p.schema raw.rows = Summary.compute raw.schema raw.rows
      rw [schema_of_toRows hraw]
  · intro e schema points hne hpoints
    rcases Nat.eq_zero_or_pos schema.size with hzero | hpos
    · obtain ⟨q, hq, hcount, hunnest⟩ := unnest_of_widthless (e := e) hne hzero hpoints
      exact ⟨q, hq, hcount, [], hunnest, fun hpos => absurd hzero (Nat.ne_of_gt hpos), fun _ => rfl⟩
    · obtain ⟨q, hq, hunnest⟩ := unnest_nest (e := e) hne hpos hpoints
      have hcount : q.count = points.length := by
        rw [RowPatch.ofPoints_eq_ofWhole hne hpoints] at hq
        cases hq
        rfl
      refine ⟨q, hq, hcount, _, hunnest, fun _ => ⟨rfl, ?_⟩,
        fun hzero => absurd hzero (Nat.ne_of_gt hpos)⟩
      rw [List.map_map]
      rfl

/-- A patch with a column in each mode, and two points of which one is a view. -/
theorem unnest_inverse_specimen :
    let e : Engine := { deflate := Deflate.codec }
    (∃ raw points q, (Patch.columns .specimen).toRows e = .ok raw
        ∧ (Patch.columns .specimen).unnest e = .ok points ∧ points.length = 3
        ∧ RowPatch.ofPoints points = .ok q ∧ q.rows = raw.rows
        ∧ q.bounds = raw.computeBounds.bounds)
      ∧ ∃ q, RowPatch.ofPoints [⟨bytewise, [7], true⟩, ⟨bytewise, [9], false⟩] = .ok q
        ∧ (Patch.rows q).unnest e = .ok [⟨bytewise, [7], false⟩, ⟨bytewise, [9], false⟩] := by
  intro e
  obtain ⟨hpatch, hpoints⟩ := unnest_inverse
  constructor
  · obtain ⟨raw, points, q, hraw, hunnest, hlength, hnest, -, -, hrows, hbounds, -⟩ :=
      hpatch e (.columns .specimen) Schema.specimen_built
        (wellFormed_columns_iff.2 ⟨_, ColumnPatch.specimen_holds⟩) (by decide) (by decide)
    exact ⟨raw, points, q, hraw, hunnest, hlength, hnest, hrows, hbounds⟩
  · obtain ⟨q, hq, -, again, hunnest, hagain, -⟩ :=
      hpoints e bytewise [⟨bytewise, [7], true⟩, ⟨bytewise, [9], false⟩] (by decide) (by decide)
    obtain ⟨rfl, -⟩ := hagain (by decide)
    exact ⟨q, hq, hunnest⟩

/-- Two points without bytes are put together to a patch of two points, which is taken apart into
none. -/
theorem unnest_forgets_widthless :
    let e : Engine := { deflate := Deflate.codec }
    let schema : Schema := .vacant 0
    let points : PointList := [.zero schema, .zero schema]
    points ≠ [] ∧ (∀ point ∈ points, point.schema = schema ∧ point.data.length = schema.size)
      ∧ ∃ q, RowPatch.ofPoints points = .ok q ∧ q.count = 2
        ∧ (Patch.rows q).unnest e = .ok []
        ∧ ([] : PointList).map Point.data ≠ points.map Point.data := by
  refine ⟨by decide, by decide, _, rfl, rfl, rfl, by decide⟩

end Patch

end PointPatch
