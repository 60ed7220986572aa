/-
PointPatch/Proofs/Patch/Merging.lean

Patches made into one.

The rows of patches with one schema id are put behind each other, whatever
layout each of them has (`exists_merge`).  Where all layouts are alike, and a
machine can count the points and has memory for the rows, the merged patch has
rows of one width, one for each point, and its points are those of the patches
in order (`merge_concatenates`).  An id does not say that layouts are alike: a
patch with some of its dimensions left out keeps it, and merging the two gives
rows of which some are missing (`merge_with_reduction_breaks`).
-/
import PointPatch.Patch.Merge
import PointPatch.Proofs.Machine.Growth
import PointPatch.Proofs.Patch.Acceptance
import PointPatch.Proofs.Patch.Reduction

namespace PointPatch

/-! ### Layouts that are alike -/

/-- Two dimensions read every row in the same way. -/
structure Dimension.ReadsLike (d d' : Dimension) : Prop where
  type_eq : d.type = d'.type
  byteOffset_eq : d.byteOffset = d'.byteOffset
  scale_eq : d.scale = d'.scale
  offset_eq : d.offset = d'.offset

theorem Dimension.ReadsLike.read_eq {d d' : Dimension} (h : d.ReadsLike d') (row : List UInt8) :
    d.read row = d'.read row := by
  rw [read, read, field, field, size, size, h.type_eq, h.byteOffset_eq, h.scale_eq, h.offset_eq]

/-- Two layouts read every row in the same way, dimension by dimension. -/
def Schema.ReadsLike (s t : Schema) : Prop := s.dimensions.Forall₂ Dimension.ReadsLike t.dimensions

namespace Schema.ReadsLike

variable {s t : Schema}

theorem size_eq (h : s.ReadsLike t) : s.size = t.size := by
  rw [← width_dimensions, ← width_dimensions]
  rw [ReadsLike] at h
  generalize s.dimensions = ds at h ⊢
  generalize t.dimensions = ds' at h ⊢
  induction h with
  | nil => rfl
  | cons hd _ ih => rw [width_cons, width_cons, ih, Dimension.size, Dimension.size, hd.type_eq]

/-- Points with the same bytes have the same values. -/
theorem values_eq {a b : Point} (h : a.schema.ReadsLike b.schema) (hdata : a.data = b.data) :
    a.values = b.values := by
  rw [ReadsLike] at h
  rw [Point.values, Point.values]
  generalize a.schema.dimensions = ds at h ⊢
  generalize b.schema.dimensions = ds' at h ⊢
  induction h with
  | nil => rw [List.map_nil, List.map_nil]
  | cons hd _ ih => rw [List.map_cons, List.map_cons, ih, Point.value, Point.value, hdata, hd.read_eq]

end Schema.ReadsLike

namespace Patch

variable {e : Engine} {first : Patch} {ps rest : List Patch}

/-! ### Rows behind each other -/

/-- The rows of a patch; none where they cannot be had. -/
def rowBytes (e : Engine) (p : Patch) : List UInt8 :=
  match p.toRows e with
  | .ok raw => raw.rows
  | .error _ => []

theorem rowBytes_eq {p : Patch} {raw : RowPatch} (h : p.toRows e = .ok raw) :
    p.rowBytes e = raw.rows := by
  rw [rowBytes, h]

theorem mapM_rowBytes (h : ∀ p ∈ ps, ∃ raw, p.toRows e = .ok raw) :
    ps.mapM (fun p => return (← p.toRows e).rows) = .ok (ps.map (rowBytes e)) := by
  refine mapM_eq_ok_map fun p hp => ?_
  obtain ⟨raw, hraw⟩ := h p hp
  rw [rowBytes_eq hraw, hraw]
  rfl

theorem find?_foreign (hid : ∀ p ∈ ps, p.schema.pcid = first.schema.pcid) :
    ps.find? (fun p => p.schema.pcid != first.schema.pcid) = none := by
  refine List.find?_eq_none.2 fun p hp => ?_
  rw [hid p hp]
  simp

theorem merge_eq_ok (hid : ∀ p ∈ first :: rest, p.schema.pcid = first.schema.pcid)
    (hrows : ∀ p ∈ first :: rest, ∃ raw, p.toRows e = .ok raw) :
    merge e (first :: rest) = .ok (RowPatch.ofHeader
        { schema := first.schema
          count := ((first :: rest).map count).sum
          bounds := ((first :: rest).map Patch.bounds).foldl Bounds.merge .empty }
        ((first :: rest).flatMap (rowBytes e))).computeSummary := by
  rw [merge, find?_foreign hid, mapM_rowBytes hrows, ok_bind, List.flatMap_def]
  rfl

/-- Patches with one schema id are merged by putting their rows behind each other. -/
theorem exists_merge (hid : ∀ p ∈ first :: rest, p.schema.pcid = first.schema.pcid)
    (hrows : ∀ p ∈ first :: rest, ∃ raw, p.toRows e = .ok raw) :
    ∃ m, merge e (first :: rest) = .ok m ∧ m.schema = first.schema
      ∧ m.count = ((first :: rest).map count).sum ∧ m.capacity = m.count
      ∧ m.rows = (first :: rest).flatMap (rowBytes e)
      ∧ m.summary = Summary.compute m.schema m.rows :=
  ⟨_, merge_eq_ok hid hrows, rfl, rfl, rfl, rfl, rfl⟩

/-- Patches are merged only if the rows of all of them can be had. -/
theorem exists_toRows_of_merge {m : RowPatch}
    (hid : ∀ p ∈ first :: rest, p.schema.pcid = first.schema.pcid)
    (h : merge e (first :: rest) = .ok m) {p : Patch} (hp : p ∈ first :: rest) :
    ∃ raw, p.toRows e = .ok raw := by
  rw [merge, find?_foreign hid] at h
  obtain ⟨rows, hrows, -⟩ := bind_eq_ok_iff.1 h
  obtain ⟨i, hi⟩ := List.getElem?_of_mem hp
  obtain ⟨bytes, -, hbytes⟩ := exists_getElem? (mapM_eq_ok_iff.1 hrows) hi
  obtain ⟨raw, hraw, -⟩ := bind_eq_ok_iff.1 hbytes
  exact ⟨raw, hraw⟩

/-- Rows of one width take as many bytes as there are points for. -/
theorem length_flatMap_rowBytes {size : Nat} (h : ∀ p ∈ ps, (p.rowBytes e).length = size * p.count) :
    (ps.flatMap (rowBytes e)).length = size * (ps.map count).sum := by
  induction ps with
  | nil => rfl
  | cons p ps ih =>
    rw [List.flatMap_cons, List.length_append, h p List.mem_cons_self,
      ih fun q hq => h q (List.mem_cons_of_mem p hq), List.map_cons, List.sum_cons, Nat.mul_add]

/-- The row of a point among the rows of all patches. -/
theorem slice_flatMap_rowBytes {size : Nat} {earlier later : List Patch} {p : Patch}
    (h : ∀ q ∈ earlier ++ p :: later, (q.rowBytes e).length = size * q.count) {i : Nat}
    (hi : i < p.count) :
    slice (((earlier.map count).sum + i) * size) size ((earlier ++ p :: later).flatMap (rowBytes e))
      = slice (i * size) size (p.rowBytes e) := by
  have hbefore : (earlier.flatMap (rowBytes e)).length = size * (earlier.map count).sum :=
    length_flatMap_rowBytes fun q hq => h q (List.mem_append_left _ hq)
  have hrow : i * size + size ≤ (p.rowBytes e).length := by
    rw [h p (List.mem_append_right _ List.mem_cons_self), ← Nat.succ_mul, Nat.mul_comm size]
    exact Nat.mul_le_mul_right size hi
  rw [List.flatMap_append, List.flatMap_cons, ← List.append_assoc, Nat.add_mul,
    Nat.mul_comm _ size]
  exact slice_append_middle hbefore hrow _

/-- Where two patches have rows with the same bytes and layouts that are alike, they have points
that are the same. -/
theorem exists_points {raw m : RowPatch} (hraw : raw.rows.length = raw.schema.size * raw.count)
    (hm : m.rows.length = m.schema.size * m.count) (halike : raw.schema.ReadsLike m.schema)
    {i j : Nat} (hi : i < raw.count) (hj : j < m.count)
    (hrow : slice (j * m.schema.size) m.schema.size m.rows
      = slice (i * raw.schema.size) raw.schema.size raw.rows) :
    ∃ point point', raw.point i = .ok point ∧ m.point j = .ok point'
      ∧ point'.data = point.data ∧ point'.values = point.values := by
  refine ⟨_, _, RowPatch.point_eq_ok hraw hi, RowPatch.point_eq_ok hm hj, hrow, ?_⟩
  exact (Schema.ReadsLike.values_eq halike hrow.symm).symm

/-- Patches with one schema id and layouts that are alike, whose points can be counted and whose rows
memory holds, are merged to a patch whose rows are of one width, as many as there are points in all;
and each point of each patch is, in order, a point of the merged one, with the same bytes and the
same values. -/
theorem merge_concatenates (hid : ∀ p ∈ first :: rest, p.schema.pcid = first.schema.pcid)
    (hrows : ∀ p ∈ first :: rest, ∃ raw, p.uncompress e = .ok raw
      ∧ raw.rows.length = p.schema.size * p.count)
    (halike : ∀ p ∈ first :: rest, p.schema.ReadsLike first.schema)
    (hcount : ((first :: rest).map count).sum < Machine.wordLimit)
    (hroom : e.deflate.memory.grants (((first :: rest).map count).sum * first.schema.size) = true) :
    ∃ m, merge e (first :: rest) = .ok m ∧ Machine.merge e (first :: rest) = pure m
      ∧ m.schema = first.schema ∧ m.count = ((first :: rest).map count).sum
      ∧ m.rows.length = m.schema.size * m.count
      ∧ ∀ earlier p later raw, first :: rest = earlier ++ p :: later → p.uncompress e = .ok raw →
          ∀ i < p.count, ∃ point point', raw.point i = .ok point
            ∧ m.point ((earlier.map count).sum + i) = .ok point'
            ∧ point'.data = point.data ∧ point'.values = point.values := by
  have htoRows : ∀ p ∈ first :: rest, ∃ raw, p.toRows e = .ok raw := fun p hp =>
    (hrows p hp).imp fun raw h => (uncompress_eq_ok_iff.1 h.1).1
  obtain ⟨m, hm, hschema, hsum, -, hbytes, -⟩ := exists_merge hid htoRows
  have hmachine : Machine.merge e (first :: rest) = pure m :=
    Machine.merge_eq_pure_iff.2 ⟨hm, hcount, hroom, fun p hp => (hrows p hp).imp fun _ h => h.1⟩
  have hlengths : ∀ p ∈ first :: rest, (p.rowBytes e).length = first.schema.size * p.count := by
    intro p hp
    obtain ⟨raw, hraw, hlength⟩ := hrows p hp
    rw [rowBytes_eq (uncompress_eq_ok_iff.1 hraw).1, hlength, (halike p hp).size_eq]
  have hlength : m.rows.length = m.schema.size * m.count := by
    rw [hbytes, hschema, hsum]
    exact length_flatMap_rowBytes hlengths
  refine ⟨m, hm, hmachine, hschema, hsum, hlength, ?_⟩
  intro earlier p later raw hlist huncompress i hi
  have hraw := (uncompress_eq_ok_iff.1 huncompress).1
  have hp : p ∈ first :: rest := hlist ▸ List.mem_append_right _ List.mem_cons_self
  have hsize := (halike p hp).size_eq
  obtain ⟨raw', hraw', hrawLength⟩ := hrows p hp
  obtain rfl : raw = raw' := Except.ok.inj (huncompress.symm.trans hraw')
  rw [← schema_of_toRows hraw] at hrawLength hsize
  rw [← count_of_toRows hraw] at hrawLength
  refine exists_points hrawLength hlength ?_ ?_ ?_ ?_
  · rw [schema_of_toRows hraw, hschema]
    exact halike p hp
  · rw [count_of_toRows hraw]
    exact hi
  · -- there are points before it, and it is one of those of the patch
    rw [hsum, hlist, List.map_append, List.map_cons, List.sum_append, List.sum_cons]
    omega
  · rw [hbytes, hschema, hlist, hsize, ← rowBytes_eq hraw]
    exact slice_flatMap_rowBytes (hlist ▸ hlengths) hi

/-- A point in the layout of another patch, held as a row. -/
def closedRow : RowPatch :=
  RowPatch.ofHeader { schema := openEnded.schema, count := 1 } [7, 8, 0]

/-- A row and two columns of one layout make three points. -/
theorem merge_row_and_columns :
    let e : Engine := { deflate := Deflate.codec }
    ∃ m, merge e [.rows closedRow, .columns openEnded] = .ok m
      ∧ Machine.merge e [.rows closedRow, .columns openEnded] = pure m
      ∧ m.count = 3 ∧ m.rows.length = 9
      ∧ ∃ point, m.point 2 = .ok point ∧ point.data = [2, 4, 0] := by
  intro e
  have hcolumns : (Patch.columns openEnded).uncompress e
      = .ok (RowPatch.ofHeader openEnded.toPatchHeader [1, 3, 0, 2, 4, 0]) := by
    decide
  have hid : ∀ p ∈ [Patch.rows closedRow, .columns openEnded],
      p.schema.pcid = (Patch.rows closedRow).schema.pcid := by
    decide
  have hrows : ∀ p ∈ [Patch.rows closedRow, .columns openEnded], ∃ raw, p.uncompress e = .ok raw
      ∧ raw.rows.length = p.schema.size * p.count := by
    simp only [List.forall_mem_cons]
    exact ⟨⟨_, rfl, rfl⟩, ⟨_, hcolumns, rfl⟩, by simp⟩
  have halike : ∀ p ∈ [Patch.rows closedRow, .columns openEnded],
      p.schema.ReadsLike (Patch.rows closedRow).schema := by
    have hself : openEnded.schema.ReadsLike openEnded.schema :=
      List.forall₂_same.2 fun d _ => ⟨rfl, rfl, rfl, rfl⟩
    simp only [List.forall_mem_cons]
    exact ⟨hself, hself, by simp⟩
  obtain ⟨m, hm, hmachine, hschema, hcount, hlength, hpoints⟩ :=
    merge_concatenates hid hrows halike (by decide) (by decide)
  obtain ⟨point, point', hpoint, hpoint', hdata, -⟩ :=
    hpoints [.rows closedRow] (.columns openEnded) [] _ rfl hcolumns 1 (by decide)
  cases hpoint
  rw [hschema, hcount] at hlength
  exact ⟨m, hm, hmachine, hcount, hlength, point', hpoint', hdata⟩

/-- A point of two dimensions. -/
def pair : ColumnPatch where
  schema := (Schema.vacant 2).afterSets
    [{ name := "A", position := 0, type := .uint8 }, { name := "B", position := 1, type := .uint8 }]
  count := 1
  columns := [⟨.uint8, 1, .raw, [1]⟩, ⟨.uint8, 1, .raw, [2]⟩]

/-- Merged with a patch that one of its dimensions was left out of, a patch counts two points and
has no more than a row and a half: the second point cannot be looked at. -/
theorem merge_with_reduction_breaks :
    let e : Engine := { deflate := Deflate.codec }
    ∃ q, (Patch.columns pair).reduce ["A"] = .ok q
      ∧ (∀ p ∈ [Patch.columns pair, q], p.schema.pcid = pair.schema.pcid
          ∧ ∃ raw, p.toRows e = .ok raw ∧ raw.rows.length = p.schema.size * p.count)
      ∧ ∃ m, merge e [.columns pair, q] = .ok m ∧ m.count = 2 ∧ m.schema.size = 2
        ∧ m.rows.length = 3 ∧ m.point 1 = .error (.rowMissing 1) := by
  intro e
  have hwhole : (Patch.columns pair).toRows e
      = .ok (RowPatch.ofHeader pair.toPatchHeader [1, 2]) := by
    decide
  refine ⟨_, rfl, ?_, _, rfl, by decide, by decide, by decide, by decide⟩
  simp only [List.forall_mem_cons]
  exact ⟨⟨rfl, _, hwhole, rfl⟩, ⟨rfl, _, rfl, rfl⟩, by simp⟩

end Patch

end PointPatch
