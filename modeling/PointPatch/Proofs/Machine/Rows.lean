/-
PointPatch/Proofs/Machine/Rows.lean

Rows as a machine works on them.

Every field of a schema that can be made lies within the row, so reaching for
one never stops the machine, and rows are turned around, measured and
summarised as the library does it.  A summary is made in one pass over the
rows, with a tally for each slot of the schema; the pass keeps in each tally
what the library makes of the values of the dimension (`tallyRows_eq`).
-/
import PointPatch.Patch.Rows
import PointPatch.Proofs.Machine.Basic
import PointPatch.Proofs.Schema.Slots

namespace PointPatch

namespace Machine

variable {schema : Schema} {d : Dimension} {row : List UInt8}

/-! ### Fields -/

/-- The bytes of a field. -/
def field (d : Dimension) (row : List UInt8) : Machine (List UInt8) := do
  let stop ← add d.byteOffset d.size
  range d.byteOffset stop row

/-- The row with the bytes of a field replaced. -/
def setField (d : Dimension) (new row : List UInt8) : Machine (List UInt8) := do
  let stop ← add d.byteOffset d.size
  replace d.byteOffset stop new row

/-- The number that a field stands for. -/
def readField (d : Dimension) (row : List UInt8) : Machine Double := do
  let bytes ← field d row
  let bytes ← range 0 d.type.size bytes
  return d.type.read bytes * d.scale + d.offset

/-- Whether a field lies within a row that a machine can address. -/
structure LiesIn (d : Dimension) (row : List UInt8) : Prop where
  stop_le : d.byteOffset + d.size ≤ row.length
  length_lt : row.length < wordLimit

theorem liesIn (hb : schema.Built) (hsize : schema.size < wordLimit) (hd : d ∈ schema.dimensions)
    (hrow : row.length = schema.size) : LiesIn d row := by
  have hend := hb.placed.end_le hd
  rw [Nat.zero_add, Schema.width_dimensions] at hend
  exact ⟨by rw [hrow]; exact hend, by rw [hrow]; exact hsize⟩

theorem field_eq (h : LiesIn d row) : field d row = pure (d.field row) := by
  rw [field, add_eq (Nat.lt_of_le_of_lt h.stop_le h.length_lt), pure_bind,
    range_eq (Nat.le_add_right _ _) h.stop_le, Nat.add_sub_cancel_left]
  rfl

theorem setField_eq (h : LiesIn d row) {new : List UInt8} (hnew : new.length = d.size) :
    setField d new row = pure (overwrite d.byteOffset new row) := by
  rw [setField, add_eq (Nat.lt_of_le_of_lt h.stop_le h.length_lt), pure_bind,
    replace_eq (Nat.le_add_right _ _) h.stop_le (by omega)]

theorem readField_eq (h : LiesIn d row) : readField d row = pure (d.read row) := by
  have hlength : (d.field row).length = d.type.size := length_slice h.stop_le
  have hwhole : range 0 d.type.size (d.field row) = pure (d.field row) := by
    rw [← hlength, range_to_end (Nat.zero_le _), List.drop_zero]
  rw [readField, field_eq h, pure_bind, hwhole, pure_bind]
  rfl

/-! ### Rows turned around -/

/-- The number of whole rows in a buffer. -/
def countRows (schema : Schema) (length : Nat) : Machine Nat := do
  if schema.size = 0 then
    if length ≠ 0 then throw (.zeroWidthRows schema.pcid length)
    return 0
  let leftover ← remainder length schema.size
  if leftover ≠ 0 then throw (.partialRows length schema.size)
  quotient length schema.size

/-- A row with the bytes of every field reversed. -/
def turnRow (schema : Schema) (row : List UInt8) : Machine (List UInt8) :=
  schema.dimensions.foldlM (fun row d => do
    let bytes ← field d row
    setField d bytes.reverse row) row

/-- A buffer of rows with the bytes of every field reversed. -/
def turnRows (schema : Schema) (rows : List UInt8) : Machine (List UInt8) := do
  if schema.size = 0 then return rows
  let whole ← pieces schema.size rows
  let turned ← whole.mapM (turnRow schema)
  return turned.flatten ++ rows.drop (rows.length / schema.size * schema.size)

theorem countRows_eq (schema : Schema) (length : Nat) :
    countRows schema length = lift (schema.countRows length) := by
  rw [countRows, Schema.countRows]
  by_cases hsize : schema.size = 0
  · rw [if_pos hsize, if_pos hsize]
    by_cases hlength : length = 0
    · rw [if_neg (not_not_intro hlength), if_pos hlength]
      rfl
    · rw [if_pos hlength, if_neg hlength]
      rfl
  · rw [if_neg hsize, if_neg hsize, remainder_eq hsize, pure_bind]
    by_cases hmod : length % schema.size ≠ 0
    · rw [if_pos hmod, if_pos hmod]
      rfl
    · rw [if_neg hmod, if_neg hmod, quotient_eq hsize]
      rfl

theorem turnRow_eq (hb : schema.Built) (hsize : schema.size < wordLimit)
    (hrow : row.length = schema.size) : turnRow schema row = pure (schema.flipRow row) := by
  -- a turn of the loop reverses one field, and keeps the length of the row
  refine foldlM_eq_pure (P := fun row => row.length = schema.size) ?_ hrow
  intro row d hd hrow
  have hlies := liesIn hb hsize hd hrow
  have hlength : (d.field row).reverse.length = d.size := by
    rw [List.length_reverse, Schema.length_field hb hrow hd]
  refine ⟨?_, ?_⟩
  · rw [field_eq hlies, pure_bind, setField_eq hlies hlength]
    rfl
  · rw [Dimension.flip, length_overwrite (by rw [hlength]; exact hlies.stop_le), hrow]

theorem turnRows_eq (hb : schema.Built) (hsize : schema.size < wordLimit) (rows : List UInt8) :
    turnRows schema rows = pure (schema.flipRows rows) := by
  rw [turnRows, Schema.flipRows]
  by_cases hzero : schema.size = 0
  · rw [if_pos hzero, hzero, Nat.div_zero, Nat.zero_mul, chunks, Nat.div_zero]
    rfl
  · have hturn : ∀ row ∈ chunks schema.size rows, turnRow schema row = pure (schema.flipRow row) :=
      fun row hrow => turnRow_eq hb hsize (length_of_mem_chunks hrow)
    rw [if_neg hzero, pieces_eq hzero, pure_bind, mapM_eq_pure hturn, pure_bind, List.flatMap_def]

/-! ### Bounds -/

/-- The rectangle that the rows of a buffer lie in. -/
def bounds (schema : Schema) (buffer : List UInt8) : Machine Bounds :=
  match schema.xyDimensions? with
  | some (x, y) => do
    let rows ← pieces schema.size buffer
    rows.foldlM (fun b row => do
      let vx ← readField x row
      let vy ← readField y row
      return b.expand vx vy) .empty
  | none => pure .empty

theorem mem_of_xyDimensions? {x y : Dimension} (h : schema.xyDimensions? = some (x, y)) :
    x ∈ schema.dimensions ∧ y ∈ schema.dimensions := by
  obtain ⟨x', hx, h⟩ := Option.bind_eq_some_iff.1 h
  obtain ⟨y', hy, h⟩ := Option.bind_eq_some_iff.1 h
  obtain ⟨i, -, hx⟩ := Option.bind_eq_some_iff.1 hx
  obtain ⟨j, -, hy⟩ := Option.bind_eq_some_iff.1 hy
  cases h
  exact ⟨Schema.mem_dimensions_of_dimension? hx, Schema.mem_dimensions_of_dimension? hy⟩

theorem size_ne_zero (hd : d ∈ schema.dimensions) : schema.size ≠ 0 := by
  have hpos := d.type.size_pos
  have hle : d.type.size ≤ schema.size := Schema.size_le_of_mem hd
  omega

theorem bounds_eq (hb : schema.Built) (hsize : schema.size < wordLimit) (buffer : List UInt8) :
    bounds schema buffer = pure (Bounds.ofRows schema buffer) := by
  rw [bounds, Bounds.ofRows]
  rcases hxy : schema.xyDimensions? with - | ⟨x, y⟩
  · rfl
  obtain ⟨hx, hy⟩ := mem_of_xyDimensions? hxy
  show (pieces schema.size buffer >>= fun rows => _) = _
  rw [pieces_eq (size_ne_zero hx), pure_bind]
  refine foldlM_eq_pure (P := fun _ => True) ?_ trivial
  intro b row hrow _
  have hlength := length_of_mem_chunks hrow
  refine ⟨?_, trivial⟩
  rw [readField_eq (liesIn hb hsize hx hlength), pure_bind,
    readField_eq (liesIn hb hsize hy hlength), pure_bind]

/-! ### Summaries -/

/-- What is known of the values of a dimension. -/
structure Tally where
  /-- The least value. -/
  least : Double
  /-- The greatest value. -/
  greatest : Double
  /-- The sum of the values. -/
  total : Double

namespace Tally

/-- The tally of no values. -/
def start : Tally := ⟨.largest, .lowest, .zero⟩

/-- The tally with another value. -/
def count (t : Tally) (v : Double) : Tally := ⟨t.least.min v, t.greatest.max v, t.total + v⟩

theorem foldl_count (t : Tally) (values : List Double) :
    values.foldl count t = ⟨values.foldl Double.min t.least, values.foldl Double.max t.greatest,
      values.foldl (· + ·) t.total⟩ := by
  induction values generalizing t with
  | nil => rfl
  | cons v values ih => exact ih (t.count v)

end Tally

/-- The tallies of all dimensions with the values of another row. -/
def tallyRow (schema : Schema) (tallies : List Tally) (row : List UInt8) : Machine (List Tally) :=
  schema.dimensions.zipIdx.foldlM (fun tallies (d, i) => do
    let v ← readField d row
    let t ← item tallies i
    return tallies.set i (t.count v)) tallies

/-- The tallies of all dimensions and the number of rows. -/
def tallyRows (schema : Schema) (rows : List (List UInt8)) : Machine (List Tally × Nat) :=
  rows.foldlM (fun (tallies, n) row => do
    let tallies ← tallyRow schema tallies row
    let n ← add n 1
    return (tallies, n)) (List.replicate schema.slotCount .start, 0)

/-- The point that stores a number made from the tally of every dimension. -/
def storePoint (schema : Schema) (tallies : List Tally) (f : Tally → Double) : Machine Point := do
  let data ← schema.dimensions.zipIdx.foldlM (fun row (d, i) => do
    let t ← item tallies i
    setField d (d.type.write ((f t - d.offset) / d.scale)) row) schema.zeroRow
  return { schema, data }

/-- The summary of a row buffer; none where there is no row. -/
def summary (schema : Schema) (buffer : List UInt8) : Machine (Option Summary) := do
  if schema.size = 0 ∨ buffer.length < schema.size then return none
  let rows ← pieces schema.size buffer
  let (tallies, n) ← tallyRows schema rows
  let min ← storePoint schema tallies Tally.least
  let max ← storePoint schema tallies Tally.greatest
  let avg ← storePoint schema tallies fun t => t.total / Double.ofNat n
  return some { min, max, avg }

/-- The tallies of a schema: one for each dimension, which stand in front, and one for each slot
that is left. -/
def tallies (schema : Schema) (g : Dimension → Tally) : List Tally :=
  schema.dimensions.map g
    ++ List.replicate (schema.slotCount - schema.dimensions.length) .start

theorem tallies_start (schema : Schema) :
    tallies schema (fun _ => .start) = List.replicate schema.slotCount .start := by
  have hle : schema.dimensions.length ≤ schema.slotCount := List.length_filterMap_le _ _
  rw [tallies, List.map_const', List.replicate_append_replicate]
  congr 1
  omega

/-- Counting the values of a row counts the value of every dimension, in its own tally. -/
theorem tallyRow_eq (hlies : ∀ d ∈ schema.dimensions, LiesIn d row) (g : Dimension → Tally) :
    tallyRow schema (tallies schema g) row
      = pure (tallies schema fun d => (g d).count (d.read row)) := by
  -- the tallies in front of the loop's place have been counted, those behind it have not
  have hloop : ∀ (ds : List Dimension) (counted rest : List Tally), (∀ d ∈ ds, LiesIn d row) →
      (ds.zipIdx counted.length).foldlM (fun tallies (x : Dimension × Nat) => do
          let v ← readField x.1 row
          let t ← item tallies x.2
          return tallies.set x.2 (t.count v)) (counted ++ (ds.map g ++ rest))
        = (pure (counted ++ (ds.map (fun d => (g d).count (d.read row)) ++ rest))
          : Machine (List Tally)) := by
    intro ds
    induction ds with
    | nil => intro counted rest _; rfl
    | cons d ds ih =>
      intro counted rest hds
      have hitem : item (counted ++ ((d :: ds).map g ++ rest)) counted.length = pure (g d) :=
        item_eq (by simp)
      have hset : (counted ++ ((d :: ds).map g ++ rest)).set counted.length
          ((g d).count (d.read row)) = (counted ++ [(g d).count (d.read row)]) ++ (ds.map g ++ rest) := by
        simp
      have hnext := ih (counted ++ [(g d).count (d.read row)]) rest
        fun d' hd' => hds d' (List.mem_cons_of_mem d hd')
      rw [List.length_append, List.length_singleton] at hnext
      rw [List.zipIdx_cons, List.foldlM_cons, readField_eq (hds d List.mem_cons_self), pure_bind,
        hitem, pure_bind, pure_bind, hset, hnext]
      simp
  exact hloop schema.dimensions [] _ hlies

/-- The tallies of rows are those of the values of each dimension. -/
theorem tallyRows_eq (hb : schema.Built) (hsize : schema.size < wordLimit)
    {rows : List (List UInt8)} (hrows : ∀ row ∈ rows, row.length = schema.size)
    (hcount : rows.length < wordLimit) :
    tallyRows schema rows
      = pure (tallies schema (fun d => (rows.map d.read).foldl Tally.count .start), rows.length) := by
  -- induction on the rows that are left; those before them are in the tallies, and in `n`
  have hloop : ∀ (rest : List (List UInt8)) (g : Dimension → Tally) (n : Nat),
      (∀ row ∈ rest, row.length = schema.size) → n + rest.length < wordLimit →
      rest.foldlM (fun (s : List Tally × Nat) row => do
          let tallies ← tallyRow schema s.1 row
          let n ← add s.2 1
          return (tallies, n)) (tallies schema g, n)
        = (pure (tallies schema (fun d => (rest.map d.read).foldl Tally.count (g d)), n + rest.length)
          : Machine (List Tally × Nat)) := by
    intro rest
    induction rest with
    | nil => intro g n _ _; rfl
    | cons row rest ih =>
      intro g n hrows hfits
      rw [List.length_cons] at hfits
      have hrow := hrows row List.mem_cons_self
      have hnext := ih (fun d => (g d).count (d.read row)) (n + 1)
        (fun row' hrow' => hrows row' (List.mem_cons_of_mem row hrow')) (by omega)
      rw [List.foldlM_cons, tallyRow_eq (fun d hd => liesIn hb hsize hd hrow), pure_bind,
        add_eq (by omega), pure_bind, pure_bind, hnext, List.length_cons, Nat.add_assoc,
        Nat.add_comm 1]
      rfl
  have hstart := hloop rows (fun _ => .start) 0 hrows (by omega)
  rw [tallies_start, Nat.zero_add] at hstart
  exact hstart

/-- Storing never stops the machine, and stores in every field what its own tally makes. -/
theorem storePoint_eq (hb : schema.Built) (hsize : schema.size < wordLimit)
    (g : Dimension → Tally) (f : Tally → Double) :
    storePoint schema (tallies schema g) f
      = pure { schema, data := schema.rowOf fun d => f (g d) } := by
  -- every turn of the loop keeps the length of the row
  have hstep : ∀ row, ∀ x ∈ schema.dimensions.zipIdx, row.length = schema.size →
      (item (tallies schema g) x.2 >>= fun t =>
        setField x.1 (x.1.type.write ((f t - x.1.offset) / x.1.scale)) row)
        = pure (x.1.write (f (g x.1)) row) ∧ (x.1.write (f (g x.1)) row).length = schema.size := by
    rintro row ⟨d, i⟩ hx hrow
    have hi : schema.dimensions[i]? = some d := List.mk_mem_zipIdx_iff_getElem?.1 hx
    have hlies := liesIn hb hsize (List.mem_of_getElem? hi) hrow
    have hitem : (tallies schema g)[i]? = some (g d) := by
      have hlt : i < schema.dimensions.length := (List.getElem?_eq_some_iff.1 hi).1
      rw [tallies, List.getElem?_append_left (by rw [List.length_map]; exact hlt),
        List.getElem?_map, hi, Option.map_some]
    have hlength : (d.type.write ((f (g d) - d.offset) / d.scale)).length = d.size :=
      d.type.length_write _
    refine ⟨?_, ?_⟩
    · rw [item_eq hitem, pure_bind, setField_eq hlies hlength]
      rfl
    · show (d.write _ row).length = _
      rw [Dimension.write, length_overwrite (by rw [hlength]; exact hlies.stop_le), hrow]
  have hzero : schema.zeroRow.length = schema.size := List.length_replicate
  have hfold := foldlM_eq_pure hstep hzero
  have hrow : schema.dimensions.zipIdx.foldl (fun row x => x.1.write (f (g x.1)) row) schema.zeroRow
      = schema.rowOf fun d => f (g d) := by
    rw [Schema.rowOf]
    conv_rhs => rw [← List.zipIdx_map_fst 0 schema.dimensions, List.foldl_map]
  rw [hrow] at hfold
  show (schema.dimensions.zipIdx.foldlM _ schema.zeroRow >>= fun data => _) = _
  rw [hfold, pure_bind]

theorem summary_eq (hb : schema.Built) (hsize : schema.size < wordLimit) {buffer : List UInt8}
    (hbuffer : buffer.length < wordLimit) :
    summary schema buffer = pure (Summary.compute schema buffer) := by
  rw [summary, Summary.compute]
  by_cases hnone : schema.size = 0 ∨ buffer.length < schema.size
  · rw [if_pos hnone, if_pos hnone]
  have hzero : schema.size ≠ 0 := fun h => hnone (.inl h)
  have hcount : (chunks schema.size buffer).length < wordLimit := by
    rw [length_chunks]
    exact Nat.lt_of_le_of_lt (Nat.div_le_self _ _) hbuffer
  rw [if_neg hnone, if_neg hnone, pieces_eq hzero, pure_bind,
    tallyRows_eq hb hsize (fun row hrow => length_of_mem_chunks hrow) hcount, pure_bind]
  dsimp only
  rw [storePoint_eq hb hsize, pure_bind, storePoint_eq hb hsize, pure_bind,
    storePoint_eq hb hsize, pure_bind]
  simp only [Tally.foldl_count, Summary.collect, Summary.mean, List.length_map]
  rfl

end Machine

end PointPatch
