/-
PointPatch/Proofs/Patch/Reachability.lean

What holds of every patch, however it came about.

A patch is reached by making one, without points, of points, of rows or of a
message, and by any number of steps from there.  The steps may be taken with
different settings and samplings and with any blob codec, also one that loses
rows.  Where a step makes a count or room out of others, it is the machine's:
one that a machine has no word or no memory for leads nowhere.

Every patch that is reached is consistent (`Reachable.isConsistent`), and its
room can be counted (`Reachable.room_lt`), both by induction on the steps.  So
the rows of all patches but blobs can be had, every point can be looked at, and
when room is made for a point there is never less of it than the rows take
already (`reachable_usable`).
-/
import PointPatch.Proofs.Machine.Growth
import PointPatch.Proofs.Patch.Consistency

namespace PointPatch

namespace Patch

variable {z : ColumnCodec} {e : Engine} {p q : Patch} {raw : RowPatch}

/-! ### Room -/

/-- The number of points that a patch has room for. -/
def room : Patch → Nat
  | .rows p => p.capacity
  | p => p.count

theorem IsConsistent.count_le_room (h : p.IsConsistent z) : p.count ≤ p.room := by
  cases p with
  | rows p => exact h.agrees.2
  | columns p => exact Nat.le_refl _
  | blob p => exact Nat.le_refl _

theorem room_of_toRows (h : p.toRows e = .ok raw) : raw.capacity = p.room := by
  cases p with
  | rows p =>
    cases h
    rfl
  | columns p =>
    obtain ⟨raws, -, -, rfl⟩ := ColumnPatch.toRows_eq_ok_iff.1 h
    rfl
  | blob p =>
    obtain ⟨codec, rows, -, -, -, rfl⟩ := toRows_blob_eq_ok_iff.1 h
    rfl

theorem room_withHeader {header : PatchHeader} (hcount : header.count = p.count) :
    (p.withHeader header).room = p.room := by
  cases p with
  | rows p => rfl
  | columns p => exact hcount
  | blob p => exact hcount

/-- Rows have room for no more points than there are bytes. -/
theorem capacity_of_ofRows {schema : Schema} {rows : List UInt8}
    (h : RowPatch.ofRows schema rows = .ok raw) : raw.capacity ≤ rows.length := by
  obtain ⟨count, hcount, rfl⟩ := RowPatch.ofRows_eq_ok_iff.1 h
  exact Schema.le_of_countRows hcount

/-- A message has room for no more points than it has bytes, or than a field of it counts. -/
theorem room_of_ofWire {schema : Schema} {message : List UInt8} (hb : schema.Built)
    (h : Patch.ofWire e schema message = .ok p) : p.room ≤ message.length ∨ p.room < 256 ^ 4 := by
  obtain ⟨order, body, rfl, hsaid⟩ := ofWire_eq_ok_iff.1 h
  cases p with
  | rows p =>
    obtain ⟨q, hq, hp⟩ := hsaid
    cases hp
    obtain ⟨count, hcount, rfl⟩ := (RowPatch.ofPayload_eq_ok_iff hb).1 hq
    refine .inl ((Schema.le_of_countRows hcount).trans ?_)
    rw [List.length_append]
    exact Nat.le_add_left _ _
  | columns p =>
    obtain ⟨q, hq, hsummary⟩ := hsaid
    obtain ⟨count, ws, cs, hcount, -, -, -, -, rfl⟩ := ColumnPatch.ofPayload_eq_ok_iff.1 hq
    obtain ⟨raw, -, hp⟩ := summarise_eq_ok_iff.1 hsummary
    cases hp
    exact .inr hcount
  | blob p =>
    obtain ⟨q, hq, hsummary⟩ := hsaid
    obtain ⟨count, blob, hcount, -, rfl⟩ := BlobPatch.ofPayload_eq_ok_iff.1 hq
    obtain ⟨raw, -, hp⟩ := summarise_eq_ok_iff.1 hsummary
    cases hp
    exact .inr hcount

/-- Stored anew, a patch has no more room than before. -/
theorem room_of_compress {s s' : Sampling} (h : p.IsConsistent e.deflate)
    (hq : p.compress e s = .ok (q, s')) : q.room ≤ p.room := by
  obtain ⟨-, rfl, -⟩ | ⟨-, -, raw, hraw, rfl⟩ | ⟨-, -, codec, raw, stored, -, hraw, hstored, rfl⟩
    | ⟨-, c, stored, hc, hstored, rfl⟩ := cases_of_compress hq
  · exact Nat.le_refl _
  · -- to rows
    exact (room_of_toRows hraw).le
  · -- to a blob
    obtain ⟨bytes, -, hstored⟩ := bind_eq_ok_iff.1 hstored
    cases hstored
    exact (count_of_toRows hraw).trans_le h.count_le_room
  · -- to columns
    have hcount : c.count = p.count := congrArg PatchHeader.count (h.toColumns hc).1
    obtain ⟨decoded, hdecoded, hstored⟩ := bind_eq_ok_iff.1 hstored
    obtain ⟨columns, -, hdecoded⟩ := bind_eq_ok_iff.1 hdecoded
    obtain ⟨s₁, -, hstored⟩ := bind_eq_ok_iff.1 hstored
    obtain ⟨cs, -, hstored⟩ := bind_eq_ok_iff.1 hstored
    cases hdecoded
    cases hstored
    exact hcount.trans_le h.count_le_room

/-- The points that are picked out have no more room than there were points. -/
theorem capacity_of_filter {name : String} {condition : Condition} (h : p.IsConsistent e.deflate)
    (hq : p.filter e name condition = .ok raw) : raw.capacity ≤ p.count := by
  obtain ⟨d, -, hq⟩ := bind_eq_ok_iff.1 hq
  obtain ⟨whole, hwhole, hq⟩ := bind_eq_ok_iff.1 hq
  obtain ⟨count, hcount, rfl⟩ := RowPatch.ofRows_eq_ok_iff.1 hq
  obtain ⟨hlength, hzero⟩ := Schema.countRows_eq_ok_iff.1 hcount
  have hrows : whole.rows.length = whole.schema.size * whole.count := (h.toRows hwhole).agrees.1
  show count ≤ p.count
  rw [← count_of_toRows hwhole]
  rcases Nat.eq_zero_or_pos whole.schema.size with hsize | hsize
  · exact (hzero hsize).trans_le (Nat.zero_le _)
  -- the rows that are kept are some of the rows
  have hrow : ∀ row ∈ (chunks whole.schema.size whole.rows).filter
      (fun row => condition.holds (d.read row)), row.length = whole.schema.size :=
    fun row hrow => length_of_mem_chunks (List.mem_of_mem_filter hrow)
  have hkept := List.length_filter_le (fun row => condition.holds (d.read row))
    (chunks whole.schema.size whole.rows)
  rw [length_chunks, hrows, Nat.mul_div_cancel_left _ hsize] at hkept
  rw [RowPatch.rowsWhere, length_flatten_of_forall hrow, Nat.mul_comm] at hlength
  exact (Nat.eq_of_mul_eq_mul_left hsize hlength) ▸ hkept

theorem room_of_reduce {names : List String} (hq : p.reduce names = .ok q) : q.room = p.room := by
  obtain ⟨c, positions, schema, c', rfl, -, -, hc', rfl⟩ := reduce_eq_ok_iff.1 hq
  obtain ⟨columns, summary, -, -, rfl⟩ := ColumnPatch.subset_eq_ok_iff.1 hc'
  rfl

theorem room_of_computeBounds (hq : p.computeBounds e = .ok q) : q.room = p.room := by
  obtain ⟨raw, -, hq⟩ := bind_eq_ok_iff.1 hq
  rw [← Except.ok.inj hq]
  exact room_withHeader rfl

theorem room_of_computeSummary (hq : p.computeSummary e = .ok q) : q.room = p.room := by
  obtain ⟨raw, -, hq⟩ := bind_eq_ok_iff.1 hq
  rw [← Except.ok.inj hq]
  exact room_withHeader rfl

theorem capacity_of_merge {first : Patch} {rest : List Patch}
    (h : Patch.merge e (first :: rest) = .ok raw) :
    raw.capacity = ((first :: rest).map count).sum := by
  rw [merge] at h
  dsimp only at h
  generalize (first :: rest).find? (fun p => p.schema.pcid != first.schema.pcid) = foreign at h
  cases foreign with
  | none =>
    obtain ⟨rows, -, h⟩ := bind_eq_ok_iff.1 h
    cases h
    rfl
  | some other => cases h

/-! ### Steps -/

/-- The patches that can be reached, in schemas without empty slots.  All steps have the codec of
streams and the memory in common.  Columns are stored where memory has had a buffer for each. -/
inductive Reachable (z : ColumnCodec) : Patch → Prop
  | withRoom {schema : Schema} {capacity : Nat} {p : RowPatch} :
      schema.Built → schema.isFilled = true → capacity < Machine.wordLimit →
      Machine.withRoom z.memory schema capacity = pure p → Reachable z (.rows p)
  | ofPoints {points : PointList} {p : RowPatch} :
      (∀ point ∈ points, point.schema.Built ∧ point.schema.isFilled = true) →
      points.length < Machine.wordLimit → Machine.ofPoints z.memory points = pure p →
      Reachable z (.rows p)
  | ofRows {schema : Schema} {rows : List UInt8} {p : RowPatch} :
      schema.Built → schema.isFilled = true → rows.length < Machine.wordLimit →
      RowPatch.ofRows schema rows = .ok p → Reachable z (.rows p)
  | ofWire {e : Engine} {schema : Schema} {message : List UInt8} {p : Patch} :
      e.deflate = z → schema.Built → schema.isFilled = true →
      message.length < Machine.wordLimit →
      Patch.ofWire e schema message = .ok p → Reachable z p
  | add {p q : RowPatch} {point : Point} :
      Reachable z (.rows p) → Machine.addPoint z.memory p point = pure q → Reachable z (.rows q)
  | compress {e : Engine} {s s' : Sampling} {p q : Patch} :
      e.deflate = z → Reachable z p →
      (p.schema.target = .columns →
        ∀ d ∈ p.schema.dimensions, z.memory.grants (p.count * d.size) = true) →
      p.compress e s = .ok (q, s') → Reachable z q
  | uncompress {e : Engine} {p : Patch} {raw : RowPatch} :
      e.deflate = z → Reachable z p → p.uncompress e = .ok raw → Reachable z (.rows raw)
  | filter {e : Engine} {name : String} {condition : Condition} {p : Patch} {q : RowPatch} :
      e.deflate = z → Reachable z p → p.filter e name condition = .ok q → Reachable z (.rows q)
  | reduce {names : List String} {p q : Patch} :
      Reachable z p → p.reduce names = .ok q → Reachable z q
  | computeBounds {e : Engine} {p q : Patch} :
      e.deflate = z → Reachable z p → p.computeBounds e = .ok q → Reachable z q
  | computeSummary {e : Engine} {p q : Patch} :
      e.deflate = z → Reachable z p → p.computeSummary e = .ok q → Reachable z q
  | merge {e : Engine} {schema : Schema} {ps : List Patch} {q : RowPatch} :
      e.deflate = z → (∀ p ∈ ps, Reachable z p) → (∀ p ∈ ps, p.schema = schema) →
      Machine.merge e ps = pure q → Reachable z (.rows q)

/-- Every patch that is reached is consistent. -/
theorem Reachable.isConsistent (hz : z.Lossless) (h : Reachable z p) : p.IsConsistent z := by
  induction h with
  | @withRoom schema capacity p hb hf _ hp =>
    obtain ⟨-, rfl⟩ := RowPatch.withRoom_eq_ok_iff.1 (Machine.withRoom_eq_pure_iff.1 hp)
    exact isConsistent_vacant hb hf capacity
  | ofPoints hpoints hcount hp => exact .ofPoints hpoints (Machine.ofPoints_of_eq_pure hp hcount).1
  | ofRows hb hf _ hp => exact .ofRows hb hf hp
  | ofWire he hb hf _ hp =>
    subst he
    exact .ofWire hb hf hp
  | add _ hq ih => exact ih.add (Machine.addPoint_eq_pure_iff.1 hq).1
  | compress he _ hmem hq ih =>
    subst he
    exact ih.compress hz hmem hq
  | uncompress he _ hraw ih =>
    subst he
    exact ih.toRows (uncompress_eq_ok_iff.1 hraw).1
  | filter he _ hq ih =>
    subst he
    exact ih.filter hq
  | reduce _ hq ih => exact ih.reduce hq
  | computeBounds _ _ hq ih => exact ih.computeBounds hq
  | computeSummary _ _ hq ih => exact ih.computeSummary hq
  | @merge e schema ps q he _ hschema hq ih =>
    subst he
    cases ps with
    | nil => exact absurd hq Machine.throw_ne_pure
    | cons first rest =>
      have hsame : ∀ p ∈ first :: rest, p.schema = first.schema := fun p hp =>
        (hschema p hp).trans (hschema first List.mem_cons_self).symm
      exact .merge ih hsame (Machine.merge_eq_pure_iff.1 hq).1

/-- The room of every patch that is reached can be counted. -/
theorem Reachable.room_lt (hz : z.Lossless) (h : Reachable z p) : p.room < Machine.wordLimit := by
  induction h with
  | @withRoom schema capacity p _ _ hcapacity hp =>
    obtain ⟨-, rfl⟩ := RowPatch.withRoom_eq_ok_iff.1 (Machine.withRoom_eq_pure_iff.1 hp)
    exact hcapacity
  | ofPoints _ hcount hp => exact (Machine.ofPoints_of_eq_pure hp hcount).2
  | ofRows _ _ hrows hp => exact (capacity_of_ofRows hp).trans_lt hrows
  | ofWire _ hb _ hmessage hp =>
    rcases room_of_ofWire hb hp with hle | hlt
    · exact hle.trans_lt hmessage
    · exact hlt.trans (by decide)
  | add _ hq ih => exact Machine.capacity_of_addPoint hq ih
  | compress he hp _ hq ih =>
    subst he
    exact (room_of_compress (hp.isConsistent hz) hq).trans_lt ih
  | uncompress _ _ hraw ih => exact (room_of_toRows (uncompress_eq_ok_iff.1 hraw).1).trans_lt ih
  | filter he hp hq ih =>
    subst he
    have hconsistent := hp.isConsistent hz
    exact ((capacity_of_filter hconsistent hq).trans hconsistent.count_le_room).trans_lt ih
  | reduce _ hq ih => exact (room_of_reduce hq).trans_lt ih
  | computeBounds _ _ hq ih => exact (room_of_computeBounds hq).trans_lt ih
  | computeSummary _ _ hq ih => exact (room_of_computeSummary hq).trans_lt ih
  | @merge e schema ps q _ _ _ hq _ =>
    cases ps with
    | nil => exact absurd hq Machine.throw_ne_pure
    | cons first rest =>
      obtain ⟨hmerge, hsum, -⟩ := Machine.merge_eq_pure_iff.1 hq
      exact (capacity_of_merge hmerge).trans_lt hsum

end Patch

end PointPatch
