/-
PointPatch/Proofs/Machine/Growth.lean

Patches as a machine lets them grow.

Room is made for points, a point is added, patches are merged: the counts and
the room that these lead to are sums and products of counts that were there
before, so there is no end to them, and at some time a machine has no word for
them or no memory.  It stops then.  What is told here of each operation is that
the machine has a result exactly if the library has one, and the numbers can be
counted and memory has the buffers (`addPoint_eq_pure_iff`,
`merge_eq_pure_iff`).

The one difference that is taken, of the room that has been made and what the
rows take of it, is a number whenever the library has a result
(`makeRoom_eq_pure_iff`).
-/
import PointPatch.Patch.Merge
import PointPatch.Proofs.Machine.Basic
import PointPatch.Proofs.Patch.WellFormed

namespace PointPatch

/-- Whether the room of a patch that is full can be doubled. -/
def RowPatch.HasHeadroom (memory : Memory) (p : RowPatch) : Prop :=
  p.count = p.capacity → 2 * p.capacity < Machine.wordLimit
    ∧ memory.grants (max (2 * p.capacity) 1 * p.schema.size) = true

/-- Rows with bytes in them run out of memory before a machine runs out of words. -/
theorem RowPatch.hasHeadroom_of_grants {memory : Memory} {p : RowPatch} (hsize : 0 < p.schema.size)
    (h : p.count = p.capacity → memory.grants (max (2 * p.capacity) 1 * p.schema.size) = true) :
    p.HasHeadroom memory := by
  intro hfull
  have hroom := Machine.lt_of_grants (h hfull)
  have hle : max (2 * p.capacity) 1 ≤ max (2 * p.capacity) 1 * p.schema.size :=
    Nat.le_mul_of_pos_right _ hsize
  exact ⟨((Nat.le_max_left _ 1).trans hle).trans_lt hroom, h hfull⟩

/-- Where there is headroom there is a number for another point. -/
theorem RowPatch.HasHeadroom.count_lt {memory : Memory} {p : RowPatch} (h : p.HasHeadroom memory)
    (hcount : p.count ≤ p.capacity) (hcapacity : p.capacity < Machine.wordLimit) :
    p.count + 1 < Machine.wordLimit := by
  rcases Nat.lt_or_eq_of_le hcount with hlt | hfull
  · omega
  · have hdouble := (h hfull).1
    rw [Machine.wordLimit] at hdouble ⊢
    omega

namespace Machine

variable {memory : Memory} {schema : Schema} {p q : RowPatch} {point : Point}

/-- A buffer of so many bytes, without which the machine stops. -/
def reserve (memory : Memory) (length : Nat) : Machine Unit :=
  if memory.grants length then pure () else halt

theorem reserve_eq_pure_iff {length : Nat} {u : Unit} :
    reserve memory length = pure u ↔ memory.grants length = true :=
  ite_halt_eq_pure_iff.trans (and_iff_left rfl)

/-! ### Room -/

/-- A patch without points that has room for some. -/
def withRoom (memory : Memory) (schema : Schema) (capacity : Nat) : Machine RowPatch := do
  let length ← mul capacity schema.size
  reserve memory length
  return RowPatch.vacant schema capacity

/-- The patch with its room doubled if it is full. -/
def makeRoom (memory : Memory) (p : RowPatch) : Machine RowPatch := do
  if p.count ≠ p.capacity then return p
  let doubled ← mul p.capacity 2
  let capacity := max doubled 1
  let length ← mul capacity p.schema.size
  let _ ← sub length p.rows.length
  reserve memory length
  return { p with capacity }

theorem withRoom_eq_pure_iff {capacity : Nat} :
    withRoom memory schema capacity = pure q ↔
      RowPatch.withRoom schema capacity memory = .ok q := by
  rw [RowPatch.withRoom_eq_ok_iff, withRoom]
  simp only [bind_eq_pure_iff, mul_eq_pure_iff, reserve_eq_pure_iff, pure_eq_pure_iff]
  constructor
  · rintro ⟨-, ⟨-, rfl⟩, -, hroom, rfl⟩
    exact ⟨hroom, rfl⟩
  · rintro ⟨hroom, rfl⟩
    exact ⟨_, ⟨lt_of_grants hroom, rfl⟩, (), hroom, rfl⟩

theorem makeRoom_eq_pure_iff :
    makeRoom memory p = pure q ↔ p.makeRoom = .ok q ∧ p.HasHeadroom memory := by
  rw [makeRoom, RowPatch.makeRoom_eq_ok_iff, RowPatch.HasHeadroom, Nat.mul_comm 2]
  by_cases hfull : p.count = p.capacity
  · rw [if_neg (not_not_intro hfull)]
    simp only [bind_eq_pure_iff, mul_eq_pure_iff, sub_eq_pure_iff, reserve_eq_pure_iff,
      pure_eq_pure_iff]
    constructor
    · rintro ⟨-, ⟨hdouble, rfl⟩, -, ⟨-, rfl⟩, -, ⟨hrows, -⟩, -, hroom, rfl⟩
      exact ⟨.inr ⟨hfull, hrows, rfl⟩, fun _ => ⟨hdouble, hroom⟩⟩
    · rintro ⟨⟨hne, -⟩ | ⟨-, hrows, rfl⟩, hheadroom⟩
      · exact absurd hfull hne
      · obtain ⟨hdouble, hroom⟩ := hheadroom hfull
        exact ⟨_, ⟨hdouble, rfl⟩, _, ⟨lt_of_grants hroom, rfl⟩, _, ⟨hrows, rfl⟩, (), hroom, rfl⟩
  · rw [if_pos hfull, pure_eq_pure_iff]
    constructor
    · rintro rfl
      exact ⟨.inl ⟨hfull, rfl⟩, fun h => absurd h hfull⟩
    · rintro ⟨⟨-, rfl⟩ | ⟨h, -⟩, -⟩
      · rfl
      · exact absurd h hfull

/-! ### Points -/

/-- The patch with a point added at the end. The summary is left as it was. -/
def addPoint (memory : Memory) (p : RowPatch) (point : Point) : Machine RowPatch := do
  if point.schema.pcid ≠ p.schema.pcid ∨ point.data.length ≠ p.schema.size then
    throw (.foreignPoint point.schema.pcid p.schema.pcid)
  let p ← makeRoom memory p
  let count ← add p.count 1
  return { p with
    count
    bounds := match point.x, point.y with
      | .ok x, .ok y => p.bounds.expand x y
      | _, _ => p.bounds
    rows := p.rows ++ point.data }

/-- The patch of some points, in the schema of the first. -/
def ofPoints (memory : Memory) (points : PointList) : Machine RowPatch :=
  match points with
  | [] => throw .noPoints
  | first :: _ => do
    let p ← withRoom memory first.schema points.length
    let p ← points.foldlM (addPoint memory) p
    return p.computeSummary

theorem addPoint_eq_pure_iff :
    addPoint memory p point = pure q ↔
      p.add point = .ok q ∧ p.HasHeadroom memory ∧ p.count + 1 < wordLimit := by
  rw [addPoint, RowPatch.add, check_eq_pure_iff, check_eq_ok_iff, bind_eq_ok_iff]
  simp only [bind_eq_pure_iff, makeRoom_eq_pure_iff, add_eq_pure_iff, pure_eq_pure_iff]
  constructor
  · rintro ⟨hpoint, r, ⟨hr, hheadroom⟩, -, ⟨hcount, rfl⟩, rfl⟩
    obtain ⟨capacity, rfl, -⟩ := RowPatch.capacity_of_makeRoom hr
    exact ⟨⟨hpoint, _, hr, rfl⟩, hheadroom, hcount⟩
  · rintro ⟨⟨hpoint, r, hr, hq⟩, hheadroom, hcount⟩
    obtain ⟨capacity, rfl, -⟩ := RowPatch.capacity_of_makeRoom hr
    exact ⟨hpoint, _, ⟨hr, hheadroom⟩, _, ⟨hcount, rfl⟩, Except.ok.inj hq⟩

/-- A point that has been added leaves room that can be counted. -/
theorem capacity_of_addPoint (h : addPoint memory p point = pure q)
    (hcapacity : p.capacity < wordLimit) : q.capacity < wordLimit := by
  obtain ⟨hadd, hheadroom, -⟩ := addPoint_eq_pure_iff.1 h
  obtain ⟨-, r, hr, hq⟩ := RowPatch.parts_of_add hadd
  rw [hq]
  obtain ⟨-, rfl⟩ | ⟨hfull, -, rfl⟩ := RowPatch.makeRoom_eq_ok_iff.1 hr
  · exact hcapacity
  · exact Nat.max_lt.2 ⟨(hheadroom hfull).1, by decide⟩

/-- What points make on a machine, they make in the library, with room that can be counted. -/
theorem ofPoints_of_eq_pure {points : PointList} (h : ofPoints memory points = pure q)
    (hcount : points.length < wordLimit) :
    RowPatch.ofPoints points = .ok q ∧ q.capacity < wordLimit := by
  have hloop : ∀ (points : PointList) (p q : RowPatch), points.foldlM (addPoint memory) p = pure q →
      p.capacity < wordLimit → points.foldlM RowPatch.add p = .ok q ∧ q.capacity < wordLimit := by
    intro points
    induction points with
    | nil =>
      intro p q h hp
      cases pure_eq_pure_iff.1 h
      exact ⟨rfl, hp⟩
    | cons point points ih =>
      intro p q h hp
      obtain ⟨r, hr, h⟩ := bind_eq_pure_iff.1 h
      obtain ⟨hrest, hq⟩ := ih r q h (capacity_of_addPoint hr hp)
      exact ⟨bind_eq_ok_iff.2 ⟨r, (addPoint_eq_pure_iff.1 hr).1, hrest⟩, hq⟩
  cases points with
  | nil => exact absurd h throw_ne_pure
  | cons first points =>
    obtain ⟨p, hp, h⟩ := bind_eq_pure_iff.1 h
    obtain ⟨-, rfl⟩ := RowPatch.withRoom_eq_ok_iff.1 (withRoom_eq_pure_iff.1 hp)
    obtain ⟨r, hr, h⟩ := bind_eq_pure_iff.1 h
    cases pure_eq_pure_iff.1 h
    obtain ⟨hadded, hcapacity⟩ := hloop _ _ _ hr hcount
    exact ⟨bind_eq_ok_iff.2 ⟨r, hadded, rfl⟩, hcapacity⟩

/-! ### Patches -/

/-- The number of points of some patches. -/
def totalCount (ps : List Patch) : Machine Nat := ps.foldlM (fun total p => add total p.count) 0

/-- The patch of all points of some patches. -/
def merge (e : Engine) (ps : List Patch) : Machine RowPatch :=
  match ps with
  | [] => throw .noPatches
  | first :: _ => do
    let schema := first.schema
    if let some other := ps.find? fun p => p.schema.pcid != schema.pcid then
      throw (.mixedSchemas schema.pcid other.schema.pcid)
    let count ← totalCount ps
    let length ← mul count schema.size
    reserve e.deflate.memory length
    let rows ← ps.mapM fun p => return (← lift (p.uncompress e)).rows
    let header : PatchHeader :=
      { schema, count, bounds := (ps.map Patch.bounds).foldl Bounds.merge .empty }
    return (RowPatch.ofHeader header rows.flatten).computeSummary

theorem totalCount_eq_pure_iff {ps : List Patch} {n : Nat} :
    totalCount ps = pure n ↔ (ps.map Patch.count).sum < wordLimit ∧ (ps.map Patch.count).sum = n := by
  have hloop : ∀ start < wordLimit, ps.foldlM (fun total p => add total p.count) start = pure n ↔
      start + (ps.map Patch.count).sum < wordLimit ∧ start + (ps.map Patch.count).sum = n := by
    induction ps with
    | nil =>
      intro start hstart
      exact pure_eq_pure_iff.trans (and_iff_right hstart).symm
    | cons p ps ih =>
      intro start hstart
      simp only [List.foldlM_cons, bind_eq_pure_iff, add_eq_pure_iff, List.map_cons, List.sum_cons,
        ← Nat.add_assoc]
      constructor
      · rintro ⟨-, ⟨hnext, rfl⟩, h⟩
        exact (ih _ hnext).1 h
      · rintro ⟨hsum, hn⟩
        have hnext : start + p.count < wordLimit := by omega
        exact ⟨_, ⟨hnext, rfl⟩, (ih _ hnext).2 ⟨hsum, hn⟩⟩
  have htotal := hloop 0 (by decide)
  rwa [Nat.zero_add] at htotal

/-- The rows of patches are had in memory if they can be had, and memory has a buffer for each. -/
theorem mapM_uncompress_eq_ok_iff {e : Engine} {ps : List Patch} {rows : List (List UInt8)} :
    (ps.mapM fun p => return (← p.uncompress e).rows) = .ok rows ↔
      (∀ p ∈ ps, ∃ raw, p.uncompress e = .ok raw)
        ∧ (ps.mapM fun p => return (← p.toRows e).rows) = .ok rows := by
  have hpatch : ∀ (p : Patch) (bytes : List UInt8),
      (p.uncompress e >>= fun raw => Except.ok raw.rows) = .ok bytes ↔
        (∃ raw, p.uncompress e = .ok raw)
          ∧ (p.toRows e >>= fun raw => Except.ok raw.rows) = .ok bytes := by
    intro p bytes
    simp only [bind_eq_ok_iff]
    constructor
    · rintro ⟨raw, hraw, hbytes⟩
      exact ⟨⟨raw, hraw⟩, raw, (Patch.uncompress_eq_ok_iff.1 hraw).1, hbytes⟩
    · rintro ⟨⟨raw, hraw⟩, raw', hraw', hbytes⟩
      cases (Patch.uncompress_eq_ok_iff.1 hraw).1.symm.trans hraw'
      exact ⟨raw, hraw, hbytes⟩
  rw [mapM_eq_ok_iff, mapM_eq_ok_iff, ← List.forall₂_and_left]
  exact ⟨List.Forall₂.imp fun p bytes => (hpatch p bytes).1,
    List.Forall₂.imp fun p bytes => (hpatch p bytes).2⟩

/-- Patches are merged if their points can be counted, memory has a buffer for the rows of all, and
has those of each. -/
theorem merge_eq_pure_iff {e : Engine} {first : Patch} {rest : List Patch} :
    merge e (first :: rest) = pure q ↔ Patch.merge e (first :: rest) = .ok q
      ∧ ((first :: rest).map Patch.count).sum < wordLimit
      ∧ e.deflate.memory.grants (((first :: rest).map Patch.count).sum * first.schema.size) = true
      ∧ ∀ p ∈ first :: rest, ∃ raw, p.uncompress e = .ok raw := by
  have hrows : (first :: rest).mapM (fun p => return (← lift (p.uncompress e)).rows)
      = lift ((first :: rest).mapM fun p => return (← p.uncompress e).rows) :=
    mapM_eq_lift fun p _ => bind_eq_lift rfl fun raw _ => rfl
  rw [merge, Patch.merge]
  dsimp only
  generalize (first :: rest).find? (fun p => p.schema.pcid != first.schema.pcid) = foreign
  rcases foreign with - | other
  · simp only [hrows, bind_eq_pure_iff, totalCount_eq_pure_iff, mul_eq_pure_iff,
      reserve_eq_pure_iff, lift_eq_pure_iff, mapM_uncompress_eq_ok_iff, bind_eq_ok_iff]
    constructor
    · rintro ⟨-, ⟨hsum, rfl⟩, -, ⟨-, rfl⟩, -, hroom, rows, ⟨hrows, hmap⟩, hq⟩
      exact ⟨⟨rows, hmap, lift_eq_pure_iff.1 hq⟩, hsum, hroom, hrows⟩
    · rintro ⟨⟨rows, hmap, hq⟩, hsum, hroom, hrows⟩
      exact ⟨_, ⟨hsum, rfl⟩, _, ⟨lt_of_grants hroom, rfl⟩, (), hroom, rows, ⟨hrows, hmap⟩,
        lift_eq_pure_iff.2 hq⟩
  · -- a patch of another schema
    exact iff_of_false throw_ne_pure fun h => by cases h.1

end Machine

end PointPatch
