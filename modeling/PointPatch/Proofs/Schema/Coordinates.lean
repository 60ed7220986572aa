/-
PointPatch/Proofs/Schema/Coordinates.lean

Which dimensions the coordinates of a schema are.

The slots of X and Y are looked for by name, and marked.  A dimension that is
set goes into its slot and leaves the marks where they are.  So a marked slot
holds the dimension that was set there last since coordinates were looked for;
where none was, it holds the one that was found, which has one of the names
(`Course.Marks`).  Every call keeps that (`Course.IsKept.step`), and hence so
does every course of calls (`Course.isKept_run`).

A schema that can be used has both slots marked, and both are filled.  Points
and rectangles read these two dimensions (`coordinates_of_isValid`), and each is
named as a coordinate exactly if whatever was set there since is.  That a schema
can be used does not say so: a dimension may have been set over its X, and it is
used without one (`isValid_without_x`).
-/
import PointPatch.Patch.Rows
import PointPatch.Point
import PointPatch.Proofs.Schema.Composition

namespace PointPatch

/-- A dimension has one of some names, up to the case of ASCII letters. -/
def Dimension.IsNamed (d : Dimension) (names : List String) : Prop :=
  ∃ name ∈ names, Text.sameWord d.name name = true

instance (d : Dimension) (names : List String) : Decidable (d.IsNamed names) :=
  inferInstanceAs (Decidable (∃ name ∈ names, Text.sameWord d.name name = true))

namespace Schema

variable {s s' : Schema} {d x y : Dimension} {i : Nat} {mark : Option Nat} {names : List String}
  {since : List Dimension}

/-! ### Calls -/

/-- What can be done to a schema. -/
inductive Call where
  | set (d : Dimension)
  | resolveXY
  | pcid (id : UInt32)
  | srid (id : UInt32)
  | target (form : Representation)
  | subset (positions : List Nat)

/-- The schema once a call has been made. Where the call fails, nothing changes. -/
def after (s : Schema) : Call → Schema
  | .set d => s.afterSet d
  | .resolveXY => s.resolveXY
  | .pcid id => { s with pcid := id }
  | .srid id => { s with srid := id }
  | .target form => { s with target := form }
  | .subset positions =>
    match s.subset positions with
    | .ok t => t
    | .error _ => s

/-- The schema once calls have been made, one after another. -/
def afterCalls (s : Schema) (calls : List Call) : Schema := calls.foldl after s

theorem after_subset_of_ok {positions : List Nat} {t : Schema} (h : s.subset positions = .ok t) :
    s.after (.subset positions) = t := by
  rw [after, h]

theorem after_subset_of_error {positions : List Nat} {fault : Fault}
    (h : s.subset positions = .error fault) : s.after (.subset positions) = s := by
  rw [after, h]

/-- A schema, and what has been set since its coordinates were looked for. -/
structure Course where
  /-- The schema by now. -/
  schema : Schema
  /-- The dimensions that have been set since coordinates were looked for, the last one first. -/
  since : List Dimension

namespace Course

/-- The course that begins with `count` empty slots. -/
def start (count : Nat) : Course := ⟨vacant count, []⟩

/-- The course with one more call. Coordinates are looked for when that is asked for, and when
slots are picked. -/
def step (c : Course) (call : Call) : Course where
  schema := c.schema.after call
  since :=
    match call with
    | .set d => if d.position < c.schema.slotCount then d :: c.since else c.since
    | .resolveXY => []
    | .subset positions =>
      match c.schema.subset positions with
      | .ok _ => []
      | .error _ => c.since
    | .pcid _ | .srid _ | .target _ => c.since

/-- The course with some more calls. -/
def run (c : Course) (calls : List Call) : Course := calls.foldl step c

theorem schema_run (c : Course) (calls : List Call) :
    (c.run calls).schema = c.schema.afterCalls calls := by
  induction calls generalizing c with
  | nil => rfl
  | cons call calls ih => exact ih (c.step call)

/-- What has been set into a slot last, since coordinates were looked for. -/
def lastSet? (c : Course) (i : Nat) : Option Dimension :=
  c.since.find? fun d => d.position = i

/-! ### What a mark is put on -/

/-- A marked slot holds what was set there last since coordinates were looked for, up to the place
of its field, or else a dimension with one of the names. -/
def Marks (c : Course) (names : List String) (mark : Option Nat) : Prop :=
  ∀ i, mark = some i → ∃ d, c.schema.dimension? i = some d ∧
    match c.lastSet? i with
    | some last => ∃ byteOffset, d = { last with byteOffset }
    | none => d.IsNamed names

/-- What is looked for by name is found in the slot of a dimension that has one of the names. -/
theorem marks_findAny (hs : s.Built) (names : List String) :
    Marks ⟨s, []⟩ names (s.findAny names) := by
  intro i hi
  obtain ⟨d, hfind, hposition⟩ := Option.map_eq_some_iff.1 hi
  obtain ⟨j, hj⟩ := exists_dimension?_of_mem (List.mem_of_find?_eq_some hfind)
  obtain rfl : j = i := (hs.position_eq hj).symm.trans hposition
  have hnamed : names.any (Text.sameWord d.name) = true := by
    simpa using List.find?_some hfind
  exact ⟨d, hj, List.any_eq_true.1 hnamed⟩

/-- A dimension that is set is the last one of its slot, and the other slots are left alone. -/
theorem Marks.set (h : Marks ⟨s, since⟩ names mark) (hset : s.set d = .ok s') :
    Marks ⟨s', d :: since⟩ names mark := by
  intro i hi
  obtain ⟨before, hbefore, hheld⟩ := h i hi
  obtain ⟨byteOffset, hd⟩ := dimension?_set hset i
  by_cases hslot : i = d.position
  · subst hslot
    have hlast : lastSet? ⟨s', d :: since⟩ d.position = some d :=
      List.find?_cons_of_pos (decide_eq_true rfl)
    rw [if_pos rfl] at hd
    refine ⟨{ d with byteOffset }, hd, ?_⟩
    rw [hlast]
    exact ⟨byteOffset, rfl⟩
  · have hlast : lastSet? ⟨s', d :: since⟩ i = lastSet? ⟨s, since⟩ i :=
      List.find?_cons_of_neg (by simpa using Ne.symm hslot)
    rw [if_neg hslot] at hd
    replace hbefore : s.dimension? i = some before := hbefore
    rw [hbefore] at hd
    refine ⟨{ before with byteOffset }, hd, ?_⟩
    rw [hlast]
    -- only the place of the field has changed
    rcases hl : lastSet? ⟨s, since⟩ i with - | last
    · rw [hl] at hheld
      exact hheld
    · rw [hl] at hheld
      obtain ⟨-, rfl⟩ := hheld
      exact ⟨byteOffset, rfl⟩

/-- What is in a marked slot has one of the names exactly if what has been set there since has. -/
theorem Marks.exists_isNamed_iff {c : Course} (h : c.Marks names (some i)) :
    ∃ d, c.schema.dimension? i = some d ∧
      (d.IsNamed names ↔ ∀ last, c.lastSet? i = some last → last.IsNamed names) := by
  obtain ⟨d, hd, hheld⟩ := h i rfl
  refine ⟨d, hd, ?_⟩
  rcases hlast : c.lastSet? i with - | last
  · rw [hlast] at hheld
    exact iff_of_true hheld nofun
  · rw [hlast] at hheld
    obtain ⟨byteOffset, rfl⟩ := hheld
    exact ⟨fun hnamed _ heq => Option.some.inj heq ▸ hnamed, fun hnamed => hnamed last rfl⟩

/-! ### What calls keep -/

/-- The schema can be made, and both marks are accounted for. -/
structure IsKept (c : Course) : Prop where
  built : c.schema.Built
  marks_x : c.Marks xNames c.schema.xPosition
  marks_y : c.Marks yNames c.schema.yPosition

theorem isKept_start (count : Nat) : (start count).IsKept where
  built := .vacant count
  marks_x := nofun
  marks_y := nofun

/-- Coordinates that have just been looked for are accounted for by their names. -/
theorem isKept_of_findAny (hs : s.Built) (hx : s.xPosition = s.findAny xNames)
    (hy : s.yPosition = s.findAny yNames) : IsKept ⟨s, []⟩ where
  built := hs
  marks_x := by
    rw [hx]
    exact marks_findAny hs xNames
  marks_y := by
    rw [hy]
    exact marks_findAny hs yNames

theorem IsKept.set (h : IsKept ⟨s, since⟩) (hset : s.set d = .ok s') :
    IsKept ⟨s', d :: since⟩ := by
  have hmarks : s'.xPosition = s.xPosition ∧ s'.yPosition = s.yPosition := by
    obtain ⟨-, rfl⟩ := set_eq_ok_iff.1 hset
    exact ⟨rfl, rfl⟩
  refine ⟨h.built.set hset, ?_, ?_⟩
  · rw [hmarks.1]
    exact h.marks_x.set hset
  · rw [hmarks.2]
    exact h.marks_y.set hset

theorem IsKept.label (h : IsKept ⟨s, since⟩) (pcid srid : UInt32) (target : Representation) :
    IsKept ⟨{ s with pcid, srid, target }, since⟩ :=
  ⟨h.built.label pcid srid target, h.marks_x, h.marks_y⟩

/-- Every call keeps the marks accounted for. -/
theorem IsKept.step {c : Course} (h : c.IsKept) (call : Call) : (c.step call).IsKept := by
  obtain ⟨s, since⟩ := c
  cases call with
  | set d =>
    rw [Course.step]
    dsimp only [after]
    by_cases hslot : d.position < s.slotCount
    · rw [if_pos hslot]
      exact h.set (afterSet_of_slot hslot)
    · rw [if_neg hslot, afterSet_of_no_slot hslot]
      exact h
  | resolveXY => exact isKept_of_findAny h.built.resolveXY rfl rfl
  | pcid id => exact h.label id s.srid s.target
  | srid id => exact h.label s.pcid id s.target
  | target form => exact h.label s.pcid s.srid form
  | subset positions =>
    rw [Course.step]
    rcases hsubset : s.subset positions with fault | t
    · rw [after_subset_of_error hsubset]
      exact h
    · obtain ⟨hx, hy⟩ := coordinates_of_subset hsubset
      rw [after_subset_of_ok hsubset]
      exact isKept_of_findAny (.subset hsubset) hx hy

theorem IsKept.run {c : Course} (h : c.IsKept) (calls : List Call) : (c.run calls).IsKept := by
  induction calls generalizing c with
  | nil => exact h
  | cons call calls ih => exact ih (h.step call)

/-- The marks are accounted for after any calls. -/
theorem isKept_run (count : Nat) (calls : List Call) : ((start count).run calls).IsKept :=
  (isKept_start count).run calls

end Course

/-! ### Schemas that can be used -/

/-- A schema can be used exactly if both coordinates are marked, there are slots, and none of them
is empty. -/
theorem isValid_iff : s.isValid = true ↔
    (∃ i, s.xPosition = some i) ∧ (∃ j, s.yPosition = some j) ∧ s.slots ≠ []
      ∧ s.isFilled = true := by
  rw [isValid, problem?]
  rcases s.xPosition with - | i
  · simp
  rcases s.yPosition with - | j
  · simp
  by_cases hslots : s.slots = []
  · simp [hslots]
  · simp [hslots, isFilled, Option.isSome_iff_ne_none]

/-- A point has the coordinates that its row has in the marked slots. -/
theorem point_coordinates {j : Nat} (hx : s.xPosition = some i) (hdx : s.dimension? i = some x)
    (hy : s.yPosition = some j) (hdy : s.dimension? j = some y) {p : Point} (hp : p.schema = s) :
    p.x = .ok (x.read p.data) ∧ p.y = .ok (y.read p.data) := by
  subst hp
  constructor
  · rw [Point.x, Point.xPosition, hx, ok_bind, Point.valueAt, dimensionAt_eq_ok hdx]
    rfl
  · rw [Point.y, Point.yPosition, hy, ok_bind, Point.valueAt, dimensionAt_eq_ok hdy]
    rfl

theorem xyDimensions?_eq_some {j : Nat} (hx : s.xPosition = some i) (hdx : s.dimension? i = some x)
    (hy : s.yPosition = some j) (hdy : s.dimension? j = some y) :
    s.xyDimensions? = some (x, y) := by
  rw [xyDimensions?, hx, hy, Option.bind_some, Option.bind_some, hdx, hdy]
  rfl

/-- After whatever calls, a schema that can be used has both coordinates in filled slots. Each has a
name of its coordinate exactly if whatever was set into its slot last, since coordinates were looked
for, has one. Points and the rectangles of rows read these two dimensions and no other. -/
theorem coordinates_of_isValid (count : Nat) (calls : List Call)
    (h : ((vacant count).afterCalls calls).isValid = true) :
    let c := (Course.start count).run calls
    let s := (vacant count).afterCalls calls
    ∃ i j x y, s.xPosition = some i ∧ s.yPosition = some j
      ∧ s.dimension? i = some x ∧ s.dimension? j = some y
      ∧ (x.IsNamed xNames ↔ ∀ last, c.lastSet? i = some last → last.IsNamed xNames)
      ∧ (y.IsNamed yNames ↔ ∀ last, c.lastSet? j = some last → last.IsNamed yNames)
      ∧ (∀ p : Point, p.schema = s → p.x = .ok (x.read p.data) ∧ p.y = .ok (y.read p.data))
      ∧ ∀ rows, Bounds.ofRows s rows = (chunks s.size rows).foldl
          (fun b row => b.expand (x.read row) (y.read row)) .empty := by
  intro c s
  have hs : c.schema = s := Course.schema_run (Course.start count) calls
  obtain ⟨-, hmarksx, hmarksy⟩ : c.IsKept := Course.isKept_run count calls
  rw [hs] at hmarksx hmarksy
  obtain ⟨⟨i, hi⟩, ⟨j, hj⟩, -⟩ := isValid_iff.1 h
  have hx : c.Marks xNames (some i) := hi ▸ hmarksx
  have hy : c.Marks yNames (some j) := hj ▸ hmarksy
  obtain ⟨x, hdx, hnamedx⟩ := hx.exists_isNamed_iff
  obtain ⟨y, hdy, hnamedy⟩ := hy.exists_isNamed_iff
  rw [hs] at hdx hdy
  refine ⟨i, j, x, y, hi, hj, hdx, hdy, hnamedx, hnamedy, fun p hp => ?_, fun rows => ?_⟩
  · exact point_coordinates hi hdx hj hdy hp
  · rw [Bounds.ofRows, xyDimensions?_eq_some hi hdx hj hdy]

/-- Coordinates that have been picked into each other's place, and an X that is set over the one that
was found. -/
theorem coordinates_of_isValid_overwritten :
    let calls : List Call :=
      [.set { name := "Z", position := 2, type := .int32 },
       .set { name := "Lon", position := 0, type := .int32 },
       .set { name := "LAT", position := 1, type := .int32 }, .subset [1, 0, 2], .subset [3],
       .srid 4326, .set { name := "X", position := 1, type := .int16 },
       .set { name := "Z", position := 2, type := .uint8 }]
    let s := (vacant 3).afterCalls calls
    s.isValid = true ∧ ∃ x y, s.dimension? 1 = some x ∧ s.dimension? 0 = some y
      ∧ x.IsNamed xNames ∧ y.IsNamed yNames
      ∧ ∀ p : Point, p.schema = s → p.x = .ok (x.read p.data) ∧ p.y = .ok (y.read p.data) := by
  intro calls s
  have hvalid : s.isValid = true := by decide
  obtain ⟨i, j, x, y, hi, hj, hdx, hdy, hx, hy, hpoint, -⟩ := coordinates_of_isValid 3 calls hvalid
  have hi' : s.xPosition = some 1 := by decide
  have hj' : s.yPosition = some 0 := by decide
  cases hi.symm.trans hi'
  cases hj.symm.trans hj'
  refine ⟨hvalid, x, y, hdx, hdy, hx.2 ?_, hy.2 ?_, hpoint⟩
  · -- the X that was found has been set over by another one
    rintro last ⟨⟩
    decide
  · rintro last ⟨⟩

/-- A dimension set over the X of a schema: there is none any more, and the schema can be used, with
that dimension for its X. -/
theorem isValid_without_x :
    let s := (vacant 2).afterCalls
      [.set { name := "x", position := 0, type := .uint8 },
       .set { name := "y", position := 1, type := .uint8 }, .resolveXY,
       .set { name := "z", position := 0, type := .uint8 }]
    s.isValid = true ∧ s.xPosition = some 0 ∧ (∀ d ∈ s.dimensions, ¬ d.IsNamed xNames)
      ∧ ∃ z, s.dimension? 0 = some z ∧ z.name = "z"
        ∧ ∀ data, Point.x { schema := s, data } = .ok (z.read data) := by
  intro s
  refine ⟨by decide, by decide, by decide, _, rfl, rfl, fun data => rfl⟩

end Schema

end PointPatch
