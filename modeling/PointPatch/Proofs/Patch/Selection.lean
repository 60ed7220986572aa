/-
PointPatch/Proofs/Patch/Selection.lean

Points picked out of a patch.

Of a patch that can be held as rows, in whatever form it is, those rows are
kept in which a dimension meets a condition: each as often as it was there, in
the order in which they were, with the bounds and the summary that a patch made
of them has (`exists_filter`).  Nothing else is asked of the patch.  There is
no outcome only if the name stands for no dimension.

How a patch is held has no part in it, so of a compressed patch the same points
are picked out (`filter_compress`), and which of two conditions is looked at
first has none either (`filter_comm`).

Two things are not as one would have them.  A name may stand for nothing
although a dimension has it, where the index has forgotten it.  And where the
rows of a patch are not as many as it counts, which merging can lead to, points
are picked out of the patch but not out of its compressed form
(`filter_after_trading`).
-/
import PointPatch.Proofs.Patch.Concatenation
import PointPatch.Proofs.Patch.Description
import PointPatch.Proofs.Patch.Projection

namespace PointPatch

/-! ### Conditions -/

theorem Double.le_trans {a b c : Double} (hab : a.le b = true) (hbc : b.le c = true) :
    a.le c = true := by
  simp only [Double.le, Bool.and_eq_true, Bool.not_eq_true', decide_eq_true_eq] at hab hbc ⊢
  exact ⟨⟨hab.1.1, hbc.1.2⟩, Int.le_trans hab.2 hbc.2⟩

namespace Condition

/-- What a condition asks of a value.  It is between two bounds if it is at least the one and at
most the other, whichever comes first. -/
def Meets : Condition → Double → Prop
  | below bound, v => v.lt bound = true
  | above bound, v => bound.lt v = true
  | equalTo value, v => v.eq value = true
  | between one other, v =>
    (one.le v = true ∧ v.le other = true) ∨ (other.le v = true ∧ v.le one = true)

theorem holds_iff_meets {c : Condition} {v : Double} : c.holds v = true ↔ c.Meets v := by
  cases c with
  | below bound => exact Iff.rfl
  | above bound => exact Iff.rfl
  | equalTo value => exact Iff.rfl
  | between one other =>
    rw [holds, Meets]
    by_cases horder : one.le other = true
    · -- what lies in the range taken the other way round is equal to both bounds
      rw [if_pos horder, Bool.and_eq_true]
      refine ⟨.inl, ?_⟩
      rintro (h | ⟨hother, hone⟩)
      · exact h
      · exact ⟨Double.le_trans horder hother, Double.le_trans hone horder⟩
    · rw [if_neg horder, Bool.and_eq_true]
      refine ⟨.inr, ?_⟩
      rintro (⟨hone, hother⟩ | h)
      · exact absurd (Double.le_trans hone hother) horder
      · exact h

instance (c : Condition) (v : Double) : Decidable (c.Meets v) :=
  decidable_of_iff _ holds_iff_meets

end Condition

/-! ### Names -/

namespace Schema

variable {s : Schema} {name : String} {d : Dimension}

theorem dimensionNamed_eq_ok_iff : s.dimensionNamed name = .ok d ↔ s.dimensionNamed? name = some d := by
  rw [dimensionNamed]
  cases s.dimensionNamed? name <;> simp

theorem size_pos_of_mem (hd : d ∈ s.dimensions) : 0 < s.size :=
  Nat.lt_of_lt_of_le d.type.size_pos (size_le_of_mem hd)

/-- Where no name is forgotten, a name stands for nothing only if no dimension has it. -/
theorem KnowsNames.dimensionNamed?_eq_none_iff (hb : s.Built) (h : s.KnowsNames) :
    s.dimensionNamed? name = none
      ↔ ∀ d ∈ s.dimensions, Text.lowercase d.name ≠ Text.lowercase name := by
  constructor
  · intro hnone d hd hsame
    obtain ⟨i, hi⟩ := exists_dimension?_of_mem hd
    obtain ⟨j, hj⟩ := h i d hi
    obtain ⟨d', hd', -⟩ := hb.exists_dimension?_of_position? hj
    rw [position?_congr hsame] at hj
    rw [dimensionNamed?, hj, Option.bind_some, hd'] at hnone
    cases hnone
  · intro hother
    by_contra hne
    obtain ⟨d, hd⟩ := Option.ne_none_iff_exists'.1 hne
    exact hother d (mem_of_dimensionNamed? hd) (hb.name_of_dimensionNamed? hd)

end Schema

/-! ### Rows that are kept -/

namespace RowPatch

variable {schema : Schema} {rows : List UInt8} {d d' : Dimension} {c c' : Condition}

/-- A patch of those of some rows in which a dimension meets a condition: these rows and no others,
in the order in which they stand, with the bounds and the summary of the patch that is made of
them. -/
structure IsSelection (schema : Schema) (rows : List UInt8) (d : Dimension) (c : Condition)
    (q : RowPatch) : Prop where
  schema_eq : q.schema = schema
  rows_eq : chunks schema.size q.rows
    = (chunks schema.size rows).filter fun row => c.Meets (d.read row)
  length_rows : q.rows.length = schema.size * q.count
  ofRows_eq : ofRows schema q.rows = .ok q
  none_kept : (∀ row ∈ chunks schema.size rows, ¬ c.Meets (d.read row)) →
    q.count = 0 ∧ q.rows = [] ∧ q.bounds = .empty ∧ q.summary = none

theorem keep_eq (schema : Schema) (d : Dimension) (c : Condition) (rows : List UInt8) :
    keep schema d c rows
      = ((chunks schema.size rows).filter fun row => c.Meets (d.read row)).flatten := by
  have hdecides : (fun row => c.holds (d.read row)) = fun row => decide (c.Meets (d.read row)) := by
    funext row
    rw [Bool.eq_iff_iff, decide_eq_true_iff, Condition.holds_iff_meets]
  rw [keep, hdecides]

theorem chunks_keep (hsize : 0 < schema.size) (d : Dimension) (c : Condition) (rows : List UInt8) :
    chunks schema.size (keep schema d c rows)
      = (chunks schema.size rows).filter fun row => c.Meets (d.read row) := by
  rw [keep_eq]
  exact chunks_flatten hsize fun row hrow => length_of_mem_chunks (List.mem_of_mem_filter hrow)

theorem isSelection_whole (hsize : 0 < schema.size) (d : Dimension) (c : Condition)
    (rows : List UInt8) : IsSelection schema rows d c (whole schema (keep schema d c rows)) where
  schema_eq := rfl
  rows_eq := chunks_keep hsize d c rows
  length_rows := (Nat.mul_div_cancel' (dvd_length_keep d c rows)).symm
  ofRows_eq := ofRows_eq_whole hsize (dvd_length_keep d c rows)
  none_kept := by
    intro hnone
    have hkeep : keep schema d c rows = [] := by
      rw [keep_eq, List.filter_eq_nil_iff.2 fun row hrow => by simpa using hnone row hrow]
      rfl
    have hbounds : Bounds.ofRows schema [] = .empty := by
      rw [Bounds.ofRows, chunks_nil]
      cases schema.xyDimensions? <;> rfl
    have hsummary : Summary.compute schema [] = none := if_pos (.inr hsize)
    rw [hkeep]
    exact ⟨Nat.zero_div _, rfl, hbounds, hsummary⟩

theorem keep_comm (hsize : 0 < schema.size) (rows : List UInt8) :
    keep schema d' c' (keep schema d c rows) = keep schema d c (keep schema d' c' rows) := by
  rw [keep_eq schema d' c', keep_eq schema d c (keep schema d' c' rows), chunks_keep hsize,
    chunks_keep hsize, List.filter_comm]

end RowPatch

/-! ### Patches -/

namespace Patch

variable {e : Engine} {p q : Patch} {raw : RowPatch} {name : String} {d : Dimension}

theorem filter_of_unknown (h : p.schema.dimensionNamed? name = none) (c : Condition) :
    p.filter e name c = .error (.dimensionNotFound name) :=
  filter_eq_error (by rw [Schema.dimensionNamed, h]) c

/-- Of a patch that can be held as rows, those are kept in which a dimension that is found meets a
condition. -/
theorem exists_filter (hraw : p.toRows e = .ok raw) (hd : p.schema.dimensionNamed? name = some d)
    (c : Condition) :
    ∃ q, p.filter e name c = .ok q ∧ q.IsSelection p.schema raw.rows d c := by
  have hsize := Schema.size_pos_of_mem (Schema.mem_of_dimensionNamed? hd)
  have hnamed := Schema.dimensionNamed_eq_ok_iff.2 hd
  exact ⟨_, filter_eq_whole_of_toRows hsize hraw hnamed c,
    RowPatch.isSelection_whole hsize d c raw.rows⟩

/-- Which points are picked out depends on the schema and the rows of a patch alone. -/
theorem filter_congr {raw' : RowPatch} (hschema : q.schema = p.schema) (hraw : p.toRows e = .ok raw)
    (hraw' : q.toRows e = .ok raw') (hrows : raw'.rows = raw.rows) (name : String)
    (c : Condition) : q.filter e name c = p.filter e name c := by
  have hsame : raw'.schema = raw.schema := by
    rw [schema_of_toRows hraw', schema_of_toRows hraw, hschema]
  rw [filter, filter, hschema, hraw, hraw']
  rcases p.schema.dimensionNamed name with fault | d
  · rfl
  · rw [ok_bind, ok_bind, ok_bind, ok_bind, RowPatch.rowsWhere, RowPatch.rowsWhere, hsame, hrows]

/-- Of a compressed patch the same points are picked out. -/
theorem filter_compress {s s' : Sampling} (hb : p.schema.Built) (he : e.Lossless)
    (hp : p.WellFormed e) (hstore : p.IsStorable e.deflate.memory) (hq : p.compress e s = .ok (q, s'))
    (name : String) (c : Condition) : q.filter e name c = p.filter e name c := by
  obtain ⟨raw, hraw, -⟩ := hp.exists_toRows hb
  obtain ⟨hheader, -, raw', hraw', hrows⟩ := rows_of_compress hb he hp hstore hraw hq
  exact filter_congr (congrArg PatchHeader.schema hheader) hraw hraw' hrows name c

/-- Points are picked out by two conditions in either order, with the same outcome, be it a
fault. -/
theorem filter_comm (hraw : p.toRows e = .ok raw) (hd : p.schema.dimensionNamed? name = some d)
    (name' : String) (c c' : Condition) :
    (p.filter e name c >>= fun q => filter e name' c' (.rows q))
      = (p.filter e name' c' >>= fun q => filter e name c (.rows q)) := by
  have hsize := Schema.size_pos_of_mem (Schema.mem_of_dimensionNamed? hd)
  have hnamed := Schema.dimensionNamed_eq_ok_iff.2 hd
  rw [filter_eq_whole_of_toRows hsize hraw hnamed c, ok_bind]
  rcases hd' : p.schema.dimensionNamed name' with fault | d'
  · -- the other name is a fault before and after
    rw [filter_eq_error hd' c', error_bind]
    exact filter_eq_error (p := .rows (RowPatch.whole p.schema _)) hd' c'
  · rw [filter_eq_whole_of_toRows hsize hraw hd' c', ok_bind]
    let once (d : Dimension) (c : Condition) : RowPatch :=
      RowPatch.whole p.schema (RowPatch.keep p.schema d c raw.rows)
    have htwice : ∀ {name d d' c c'}, p.schema.dimensionNamed name = .ok d' →
        filter e name c' (.rows (once d c)) = .ok (RowPatch.whole p.schema
          (RowPatch.keep p.schema d' c' (RowPatch.keep p.schema d c raw.rows))) :=
      fun hd' => filter_eq_whole_of_toRows (p := .rows (once _ _)) hsize rfl hd' _
    rw [htwice hd', htwice hnamed, RowPatch.keep_comm hsize]

/-- What picking points out of a patch that can be held as rows comes to.  A name that is not found
is the only fault.  Otherwise the rows are kept in which the dimension of this name meets the
condition, and bounds and summary are theirs.  Where the schema has forgotten no name, the names
that are not found are those that no dimension has.  Points are picked out of a patch that holds as
many rows as it counts as they are out of its compressed form; and by two conditions in either
order. -/
theorem filter_selects (hb : p.schema.Built) (hraw : p.toRows e = .ok raw) :
    (∀ name c, p.schema.dimensionNamed? name = none →
        p.filter e name c = .error (.dimensionNotFound name))
    ∧ (∀ name d c, p.schema.dimensionNamed? name = some d →
        d ∈ p.schema.dimensions ∧ Text.lowercase d.name = Text.lowercase name
        ∧ ∃ q, p.filter e name c = .ok q ∧ q.IsSelection p.schema raw.rows d c)
    ∧ (p.schema.KnowsNames → ∀ name, p.schema.dimensionNamed? name = none
        ↔ ∀ d ∈ p.schema.dimensions, Text.lowercase d.name ≠ Text.lowercase name)
    ∧ (e.Lossless → p.WellFormed e → p.IsStorable e.deflate.memory → ∀ s q s', p.compress e s = .ok (q, s') →
        ∀ name c, q.filter e name c = p.filter e name c)
    ∧ ∀ name name' c c', p.schema.dimensionNamed? name ≠ none →
        (p.filter e name c >>= fun q => filter e name' c' (.rows q))
          = (p.filter e name' c' >>= fun q => filter e name c (.rows q)) := by
  refine ⟨fun name c h => filter_of_unknown h c, fun name d c hd => ?_,
    fun hknows name => hknows.dimensionNamed?_eq_none_iff hb,
    fun he hp hstore s q s' hq => filter_compress hb he hp hstore hq,
    fun name name' c c' hfound => ?_⟩
  · exact ⟨Schema.mem_of_dimensionNamed? hd, hb.name_of_dimensionNamed? hd,
      exists_filter hraw hd c⟩
  · obtain ⟨d, hd⟩ := Option.ne_none_iff_exists'.1 hfound
    exact filter_comm hraw hd name' c c'

/-- Three points with a column in each mode, before and after their columns are stored anew. -/
theorem filter_selects_specimen :
    let e : Engine := { deflate := Deflate.codec }
    let p : Patch := .columns .specimen
    ∃ raw, p.toRows e = .ok raw
      ∧ p.filter e "Z" (.below .one) = .error (.dimensionNotFound "Z")
      ∧ (∃ d q, d ∈ p.schema.dimensions ∧ d.name = "Intensity"
          ∧ p.filter e "intensity" (.between .one .zero) = .ok q
          ∧ q.IsSelection p.schema raw.rows d (.between .one .zero))
      ∧ (∃ q s', p.compress e
            ⟨20000, 5, [⟨9, 4, .sigbits⟩, ⟨7, 0, .deflate⟩, ⟨0, 0, .rle⟩, ⟨1, 1, .raw⟩]⟩ = .ok (q, s')
          ∧ q.filter e "Time" (.above .zero) = p.filter e "Time" (.above .zero))
      ∧ (p.filter e "X" (.above .zero) >>= fun q => filter e "Y" (.equalTo .one) (.rows q))
        = (p.filter e "Y" (.equalTo .one) >>= fun q => filter e "X" (.above .zero) (.rows q)) := by
  intro e p
  have hb : p.schema.Built := Schema.specimen_built
  have hp : p.WellFormed e := wellFormed_columns_iff.2 ⟨_, ColumnPatch.specimen_holds⟩
  obtain ⟨raw, hraw, -⟩ := hp.exists_toRows hb
  have he : e.Lossless := ⟨Deflate.codec_lossless, fun _ h => by cases h⟩
  have hstore : p.IsStorable e.deflate.memory := ⟨fun _ => by decide, fun h => by cases h⟩
  obtain ⟨hunknown, hselected, -, hcompressed, hcomm⟩ := filter_selects hb hraw
  obtain ⟨q, s', hq, -⟩ := compress_preserves_rows (s := ⟨20000, 5, [⟨9, 4, .sigbits⟩,
    ⟨7, 0, .deflate⟩, ⟨0, 0, .rle⟩, ⟨1, 1, .raw⟩]⟩) hb (by decide) hp
    Deflate.codec_lossless (by decide) (fun _ => by decide) (fun htarget => by cases htarget)
  obtain ⟨hmem, -, kept, hkept, hselection⟩ := hselected "intensity" _ (.between .one .zero) rfl
  refine ⟨raw, hraw, hunknown "Z" _ (by decide), ⟨_, kept, hmem, rfl, hkept, hselection⟩,
    ⟨q, s', hq, hcompressed he hp hstore _ q s' hq "Time" _⟩, hcomm "X" "Y" _ _ (by decide)⟩

/-- A schema of two dimensions that have traded places, whose patches are stored as columns. -/
def tradedSchema : Schema :=
  { (Schema.vacant 2).afterSets Schema.tradingPlaces with pcid := 7, target := .columns }

/-- A point of two dimensions that have traded places. -/
def tradedRow : RowPatch := RowPatch.whole tradedSchema [1, 2]

/-- The point and what it is reduced to make a row and a half for two points. -/
theorem exists_merge_traded (e : Engine) :
    ∃ r m, (Patch.columns (ColumnPatch.ofRows tradedRow)).reduce ["B"] = .ok r
      ∧ merge e [.rows tradedRow, r] = .ok m
      ∧ m.schema = tradedSchema ∧ m.count = 2 ∧ m.rows = [1, 2, 1] := by
  obtain ⟨r, hr, hid, hone, reduced, hreduced, hbyte⟩ : ∃ r,
      (Patch.columns (ColumnPatch.ofRows tradedRow)).reduce ["B"] = .ok r ∧ r.schema.pcid = 7
        ∧ r.count = 1 ∧ ∃ raw, r.toRows e = .ok raw ∧ raw.rows = [1] :=
    ⟨_, rfl, rfl, rfl, _, rfl, rfl⟩
  have hids : ∀ p ∈ [Patch.rows tradedRow, r], p.schema.pcid = tradedRow.schema.pcid := by
    simp only [List.forall_mem_cons]
    exact ⟨rfl, hid, by simp⟩
  have hraws : ∀ p ∈ [Patch.rows tradedRow, r], ∃ raw, p.toRows e = .ok raw := by
    simp only [List.forall_mem_cons]
    exact ⟨⟨_, rfl⟩, ⟨reduced, hreduced⟩, by simp⟩
  obtain ⟨m, hm, hschema, hcount, -, hrows, -⟩ := exists_merge hids hraws
  refine ⟨r, m, hr, hm, hschema, ?_, ?_⟩
  · rw [hcount, List.map_cons, List.map_singleton, hone]
    rfl
  · rw [hrows, List.flatMap_cons, List.flatMap_singleton, rowBytes_eq hreduced, hbyte]
    rfl

/-- Of two dimensions that have traded places, one is not found by its name.  And of a row and a
half for two points, points are picked out by the other dimension, but not of the compressed
form. -/
theorem filter_after_trading :
    let e : Engine := { deflate := Deflate.codec }
    RowPatch.ofRows tradedSchema [1, 2] = .ok tradedRow
      ∧ (∃ d ∈ tradedSchema.dimensions, d.name = "A")
      ∧ filter e "A" (.above .zero) (.rows tradedRow) = .error (.dimensionNotFound "A")
      ∧ ∃ r m raw q s c s', (Patch.columns (ColumnPatch.ofRows tradedRow)).reduce ["B"] = .ok r
          ∧ merge e [.rows tradedRow, r] = .ok m ∧ (Patch.rows m).toRows e = .ok raw
          ∧ filter e "B" (.above .zero) (.rows m) = .ok q
          ∧ (Patch.rows m).compress e s = .ok (c, s')
          ∧ c.filter e "B" (.above .zero) = .error (.columnLength "B" 1 2) := by
  intro e
  obtain ⟨r, m, hr, hm, hschema, hcount, hrows⟩ := exists_merge_traded e
  obtain ⟨⟨schema, count, bounds, summary⟩, rows, capacity⟩ := m
  obtain rfl : schema = tradedSchema := hschema
  obtain rfl : count = 2 := hcount
  obtain rfl : rows = [1, 2, 1] := hrows
  let m : RowPatch := ⟨⟨tradedSchema, 2, bounds, summary⟩, [1, 2, 1], capacity⟩
  have hnamed : tradedSchema.dimensionNamed "B"
      = .ok { name := "B", position := 0, type := .uint8 } := by decide
  have hpicked := filter_eq_whole_of_toRows (e := e) (p := .rows m)
    (show 0 < tradedSchema.size by decide) rfl hnamed (.above .zero)
  -- a column has an element for each whole row
  let split (columns : List Column) : ColumnPatch :=
    { schema := tradedSchema, count := 2, bounds, summary, columns }
  have hcolumns : tradedSchema.dimensions.map
      (fun d => Column.gather d.type [1, 2, 1] tradedSchema.size d.byteOffset)
        = [⟨.uint8, 1, .raw, [1]⟩, ⟨.uint8, 1, .raw, [2]⟩] := by
    decide
  have hsplit : (Patch.rows m).toColumns e
      = .ok (split [⟨.uint8, 1, .raw, [1]⟩, ⟨.uint8, 1, .raw, [2]⟩]) :=
    congrArg (fun columns => Except.ok (split columns)) hcolumns
  have hstored := compress_eq_of_toColumns rfl hsplit ⟨20000, 5, [⟨9, 4, .raw⟩, ⟨7, 0, .raw⟩]⟩
  exact ⟨rfl, ⟨_, List.mem_of_getElem? (i := 1) rfl, rfl⟩, rfl, r, m, m, _, _, _, _, hr, hm, rfl,
    hpicked, hstored, rfl⟩

end Patch

end PointPatch
