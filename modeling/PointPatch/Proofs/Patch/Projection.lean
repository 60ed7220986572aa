/-
PointPatch/Proofs/Patch/Projection.lean

Reductions and what they commute with.

The summary of a reduced patch, which is carried over from the whole one, is
the summary of its own rows; and leaving out more dimensions afterwards gives
what leaving out all of them at once gives, down to the names, the columns and
the summary (`reduce_commutes`).

A name stands for the same dimension on both ways: what it stands for in the
reduced schema was picked from what it stands for in the whole one
(`Schema.exists_positions`).  So it does not matter whether names are shared.
What matters is that they are found, and that is what decides whether there is
a reduction at all.  A schema may have forgotten a name that one of its
dimensions has to itself (`reduce_after_trading`).
-/
import PointPatch.Proofs.Patch.Consistency
import PointPatch.Proofs.Patch.Restriction
import PointPatch.Proofs.Schema.Composition

namespace PointPatch

namespace Schema

variable {s t : Schema} {names fewer : List String} {positions : List Nat}

/-! ### Names in the schema of some slots -/

/-- The dimensions of the slots that some names stand for are copies, in this order, of what is in
these slots. -/
theorem exists_copies (hb : s.Built)
    (hpositions : names.Forall₂ (fun name i => s.position? name = some i) positions)
    (ht : s.subset positions = .ok t) :
    ∃ ds, positions.Forall₂ (fun i d => s.dimension? i = some d) ds
      ∧ t.slots = layOut 0 (s.picks 0 positions)
      ∧ t.dimensions.Forall₂ (fun d' d => s.dimensionNamed? d'.name = some d
          ∧ ∃ position byteOffset, d' = { d with position, byteOffset }) ds := by
  obtain ⟨ds, hds, hfound⟩ := hb.exists_dimensions hpositions
  obtain ⟨t', ht', hslots, -⟩ := exists_filled_subset hds
  cases ht.symm.trans ht'
  refine ⟨ds, hds, hslots, ?_⟩
  have hnamed : ∀ d ∈ ds, s.dimensionNamed? d.name = some d := by
    intro d hd
    obtain ⟨i, hi, hslot⟩ := hfound d hd
    exact Option.bind_eq_some_iff.2 ⟨i, hi, hslot⟩
  refine ((List.forall₂_and_left _ _).2 ⟨hnamed, (forall₂_dimensions_of_picks hslots hds).flip⟩).flip.imp
    fun d' d h => ?_
  obtain ⟨hname, position, byteOffset, rfl⟩ := h
  exact ⟨hname, position, byteOffset, rfl⟩

theorem drawsFrom_of_subset (hb : s.Built)
    (hpositions : names.Forall₂ (fun name i => s.position? name = some i) positions)
    (ht : s.subset positions = .ok t) : t.DrawsFrom s := by
  intro d' hd'
  obtain ⟨ds, -, -, hcopies⟩ := exists_copies hb hpositions ht
  obtain ⟨d, -, hname, position, byteOffset, hcopy⟩ := exists_of_mem_right hcopies.flip hd'
  exact ⟨d, position, byteOffset, hname, hcopy⟩

/-- A name that is drawn from those of some slots stands for one of these slots, in the schema of
which it stands for the copy of it. -/
theorem exists_position (hb : s.Built)
    (hpositions : names.Forall₂ (fun name i => s.position? name = some i) positions)
    (ht : s.subset positions = .ok t) {name : String}
    (hname : ∃ other ∈ names, Text.lowercase name = Text.lowercase other) :
    ∃ j i, t.position? name = some j ∧ positions[j]? = some i ∧ s.position? name = some i := by
  obtain ⟨ds, hds, hslots, -⟩ := exists_copies hb hpositions ht
  have htb : t.Built := Built.subset ht
  obtain ⟨other, hother, hsame⟩ := hname
  -- the name is known to the new schema, if perhaps for another slot of this name
  have hknown : ∃ j, t.position? name = some j := by
    obtain ⟨j, hj⟩ := List.getElem?_of_mem hother
    obtain ⟨i, hi, hposition⟩ := exists_getElem? hpositions hj
    have hat := (nameAt?_of_picks hslots hi).trans (hb.nameAt?_of_position? hposition)
    obtain ⟨d, hd, hdname⟩ := nameAt?_eq_some_iff.1 hat
    obtain ⟨j', hj'⟩ := knowsNames_of_subset ht j d hd
    exact ⟨j', (position?_congr (hsame.trans hdname.symm)).trans hj'⟩
  obtain ⟨j, hj⟩ := hknown
  have hlt : j < positions.length := by
    obtain ⟨d, hd, -⟩ := htb.exists_dimension?_of_position? hj
    rw [← slotCount_of_picks hslots]
    exact lt_slotCount_of_dimension? hd
  -- the slot behind has the same name, and so it is the one that the name stands for
  have hi : positions[j]? = some positions[j] := List.getElem?_eq_getElem hlt
  obtain ⟨found, -, hposition⟩ := exists_getElem? hpositions.flip hi
  have hat := (nameAt?_of_picks hslots hi).trans (hb.nameAt?_of_position? hposition)
  have hkey := Option.some.inj (hat.symm.trans (htb.nameAt?_of_position? hj))
  exact ⟨j, positions[j], hj, hi, (position?_congr hkey).symm.trans hposition⟩

theorem exists_positions (hb : s.Built)
    (hpositions : names.Forall₂ (fun name i => s.position? name = some i) positions)
    (ht : s.subset positions = .ok t)
    (hfewer : ∀ name ∈ fewer, ∃ other ∈ names, Text.lowercase name = Text.lowercase other) :
    ∃ inner outer, fewer.Forall₂ (fun name j => t.position? name = some j) inner
      ∧ fewer.Forall₂ (fun name i => s.position? name = some i) outer
      ∧ inner.Forall₂ (fun j i => positions[j]? = some i) outer := by
  have hpair : ∀ name ∈ fewer, ∃ x : Nat × Nat, t.position? name = some x.1
      ∧ positions[x.1]? = some x.2 ∧ s.position? name = some x.2 := by
    intro name hname
    obtain ⟨j, i, h⟩ := exists_position hb hpositions ht (hfewer name hname)
    exact ⟨(j, i), h⟩
  obtain ⟨xs, hxs⟩ := exists_forall₂ hpair
  refine ⟨xs.map Prod.fst, xs.map Prod.snd, ?_, ?_, ?_⟩
  · exact List.forall₂_map_right_iff.2 (hxs.imp fun _ _ h => h.1)
  · exact List.forall₂_map_right_iff.2 (hxs.imp fun _ _ h => h.2.2)
  · refine List.forall₂_map_left_iff.2 (List.forall₂_map_right_iff.2 (List.forall₂_same.2 ?_))
    intro x hx
    obtain ⟨name, -, h⟩ := exists_of_mem_right hxs hx
    exact h.2.1

end Schema

namespace ColumnPatch

variable {z : ColumnCodec} {c q : ColumnPatch} {raws : List Column} {names : List String}
  {positions : List Nat}

/-! ### One reduction -/

/-- Of a consistent patch, the slots that some names stand for make a patch, which is a projection. -/
theorem exists_subset_named (h : (Patch.columns c).IsConsistent z)
    (hpositions : names.Forall₂ (fun name i => c.schema.position? name = some i) positions) :
    ∃ q, c.schema.subset positions = .ok q.schema ∧ c.subset q.schema positions = .ok q
      ∧ c.IsProjection names q := by
  obtain ⟨ds, hds, -⟩ := h.built.exists_dimensions hpositions
  obtain ⟨q, hq, hprojection⟩ :=
    Patch.exists_reduce h.built h.length_columns h.summary_isOf hpositions (h.packed hds)
  obtain ⟨c', positions', schema, q', hc, hpositions', hschema, hsubset, hq'⟩ :=
    Patch.reduce_eq_ok_iff.1 hq
  cases hc
  cases hq'
  obtain rfl : positions = positions' :=
    List.right_unique_forall₂' (fun _ _ _ h h' => Option.some.inj (h.symm.trans h')) hpositions
      hpositions'
  obtain rfl : q.schema = schema := by
    obtain ⟨columns, summary, -, -, hparts⟩ := subset_eq_ok_iff.1 hsubset
    rw [hparts]
  exact ⟨q, hschema, hsubset, hprojection⟩

/-- The rows of a patch of some slots, and what they have of the fields of the whole rows. -/
theorem exists_rows_of_subset (h : (Patch.columns c).IsConsistent z) (hholds : c.Holds z raws)
    (hpositions : names.Forall₂ (fun name i => c.schema.position? name = some i) positions)
    (hschema : c.schema.subset positions = .ok q.schema)
    (hq : c.subset q.schema positions = .ok q) :
    ∃ raws', q.Holds z raws' ∧ q.count = c.count
      ∧ Summary.SameFields c.schema q.schema c.count (wovenRows c.count raws)
          (wovenRows c.count raws') := by
  have hb : c.schema.Built := h.built
  obtain ⟨ds, hds, -, hcopies⟩ := Schema.exists_copies hb hpositions hschema
  have hpicked := isPicked_of_subset h.length_columns hds (h.packed hds) hschema hq
  obtain ⟨raws', hholds', hraws⟩ := hpicked.exists_holds hholds
  refine ⟨raws', hholds', hpicked.count_eq, ?_⟩
  intro d' hd' d hd i hi
  -- the column of the copy is the column of its source
  obtain ⟨j, hj⟩ := List.getElem?_of_mem hd'
  obtain ⟨source, hsource, hname, -⟩ := exists_getElem? hcopies hj
  obtain ⟨raw, hraw, hmem⟩ := exists_getElem? hraws hsource
  cases hd.symm.trans hname
  have hmem' : (d', raw) ∈ q.schema.dimensions.zip raws' :=
    List.mem_of_getElem? (List.getElem?_zip_eq_some.2 ⟨hj, hraw⟩)
  have hfits := hholds'.fits
  rw [hpicked.count_eq] at hfits
  rw [field_slice_wovenRows hpicked.built hfits hmem' hi, field_slice_wovenRows hb hholds.fits hmem hi]

/-- The summary that is carried over is that of the rows of the new patch. -/
theorem summary_of_subset (h : (Patch.columns c).IsConsistent z) (hsize : 0 < c.schema.size)
    (hne : names ≠ []) (hholds : c.Holds z raws)
    (hsummary : c.summary = Summary.compute c.schema (wovenRows c.count raws))
    (hpositions : names.Forall₂ (fun name i => c.schema.position? name = some i) positions)
    (hschema : c.schema.subset positions = .ok q.schema)
    (hq : c.subset q.schema positions = .ok q) :
    ∃ raws', q.Holds z raws' ∧ q.summary = Summary.compute q.schema (wovenRows q.count raws') := by
  have hb : c.schema.Built := h.built
  obtain ⟨raws', hholds', hcount, hfields⟩ :=
    exists_rows_of_subset h hholds hpositions hschema hq
  refine ⟨raws', hholds', ?_⟩
  have hrows' := length_wovenRows hholds'.fits
  rw [hcount] at hrows' ⊢
  have hsize' : 0 < q.schema.size := by
    apply Nat.pos_of_ne_zero
    intro hzero
    obtain ⟨ds, hds, -, hcopies⟩ := Schema.exists_copies hb hpositions hschema
    have hnone : names.length = 0 := by
      rw [hpositions.length_eq, hds.length_eq, ← hcopies.length_eq,
        Schema.dimensions_eq_nil_of_size hzero, List.length_nil]
    exact hne (List.length_eq_zero_iff.1 hnone)
  have hrestrict := Summary.restrict_compute hb (Schema.Built.subset hschema) hsize hsize'
    (length_wovenRows hholds.fits) hrows' (Schema.drawsFrom_of_subset hb hpositions hschema) hfields
  obtain ⟨columns, summary, -, hcarried, hparts⟩ := subset_eq_ok_iff.1 hq
  rw [hsummary, hrestrict] at hcarried
  rw [Except.ok.inj hcarried, hparts]

/-! ### Two reductions -/

/-- The patch of some slots of a patch of some slots is the patch of the slots behind them. -/
theorem subset_subset {inner outer : List Nat} {r : ColumnPatch}
    (hcolumns : inner.Forall₂ (fun j i => positions[j]? = some i) outer)
    (hsummary : q.summary.mapM (Summary.restrict · r.schema)
      = c.summary.mapM (Summary.restrict · r.schema))
    (hq : c.subset q.schema positions = .ok q) (hr : c.subset r.schema outer = .ok r) :
    q.subset r.schema inner = .ok r := by
  obtain ⟨columns, summary, hpicked, -, hparts⟩ := subset_eq_ok_iff.1 hq
  obtain ⟨columns', summary', hpicked', hrestrict, hparts'⟩ := subset_eq_ok_iff.1 hr
  have hsame : q.columns = columns ∧ q.count = c.count ∧ q.bounds = c.bounds := by
    rw [hparts]
    exact ⟨rfl, rfl, rfl⟩
  obtain ⟨hqcolumns, hcount, hbounds⟩ := hsame
  refine subset_eq_ok_iff.2 ⟨columns', summary', ?_, hsummary.trans hrestrict, ?_⟩
  · refine forall₂_comp (fun j i col hji hcol => ?_) hcolumns hpicked'
    obtain ⟨col', hcol', hsource⟩ := exists_getElem? hpicked hji
    cases hcol.symm.trans hsource
    rw [hqcolumns]
    exact hcol'
  · rw [hcount, hbounds]
    exact hparts'

end ColumnPatch

namespace Patch

variable {e : Engine} {c : ColumnPatch} {raw : RowPatch} {names : List String}

/-- A reduction to names that are all found commutes with computing the summary, and with further
reductions: it is a projection whose summary is that of the rows that it has, and what can be left
of it is, as a whole, what can be left of the patch that has not been reduced. -/
theorem reduce_commutes (hb : c.schema.Built) (hf : c.schema.isFilled = true)
    (hsize : 0 < c.schema.size) (hwell : (Patch.columns c).WellFormed e)
    (hraw : (Patch.columns c).toRows e = .ok raw)
    (hsummary : c.summary = Summary.compute c.schema raw.rows) (hne : names ≠ [])
    (hfound : ∀ name ∈ names, ∃ i, c.schema.position? name = some i) :
    ∃ q raw', (Patch.columns c).reduce names = .ok (.columns q) ∧ c.IsProjection names q
      ∧ (Patch.columns q).toRows e = .ok raw'
      ∧ q.summary = Summary.compute q.schema raw'.rows
      ∧ ∀ fewer : List String,
          (∀ name ∈ fewer, ∃ other ∈ names, Text.lowercase name = Text.lowercase other) →
          ∃ r, (Patch.columns q).reduce fewer = .ok r ∧ (Patch.columns c).reduce fewer = .ok r := by
  obtain ⟨raws, hholds⟩ := wellFormed_columns_iff.1 hwell
  cases hraw.symm.trans (hholds.toRows hb)
  have hwhole : ∀ m, c.summary = some m → m.IsWhole c.schema :=
    fun m hm => Summary.isWhole_of_compute hb (hsummary.symm.trans hm)
  have hconsistent : (Patch.columns c).IsConsistent e.deflate :=
    ⟨hb, hf, fun m hm => Summary.isOf_compute (hsummary.symm.trans hm),
      agrees_columns_iff.2 ⟨raws, hholds⟩⟩
  obtain ⟨positions, hpositions⟩ := exists_forall₂ hfound
  obtain ⟨q, hschema, hq, hprojection⟩ := ColumnPatch.exists_subset_named hconsistent hpositions
  obtain ⟨raws', hholds', hsummary'⟩ :=
    ColumnPatch.summary_of_subset hconsistent hsize hne hholds hsummary hpositions hschema hq
  have hqb : q.schema.Built := Schema.Built.subset hschema
  refine ⟨q, _, reduce_eq_ok_iff.2 ⟨c, positions, q.schema, q, rfl, hpositions, hschema, hq, rfl⟩,
    hprojection, hholds'.toRows hqb, hsummary', ?_⟩
  intro fewer hfewer
  obtain ⟨inner, outer, hinner, houter, hbehind⟩ :=
    Schema.exists_positions hb hpositions hschema hfewer
  obtain ⟨r, hrschema, hr, -⟩ := ColumnPatch.exists_subset_named hconsistent houter
  have hschema' : q.schema.subset inner = .ok r.schema :=
    (Schema.subset_subset hschema hbehind).trans hrschema
  have hcarried : q.summary.mapM (Summary.restrict · r.schema)
      = c.summary.mapM (Summary.restrict · r.schema) := by
    obtain ⟨columns, summary, -, hrestrict, hparts⟩ := ColumnPatch.subset_eq_ok_iff.1 hq
    have hsame : q.summary = summary := by rw [hparts]
    rw [hsame]
    exact Summary.mapM_restrict_restrict hb hqb (Schema.Built.subset hrschema) hwhole
      (Schema.drawsFrom_of_subset hb hpositions hschema)
      (Schema.drawsFrom_of_subset hb houter hrschema)
      (Schema.drawsFrom_of_subset hqb hinner hschema') hrestrict
  have hr' := ColumnPatch.subset_subset hbehind hcarried hq hr
  exact ⟨.columns r,
    reduce_eq_ok_iff.2 ⟨q, inner, r.schema, r, rfl, hinner, hschema', hr', rfl⟩,
    reduce_eq_ok_iff.2 ⟨c, outer, r.schema, r, rfl, houter, hrschema, hr, rfl⟩⟩

/-- Two points of two dimensions, one column raw and one of runs, with the summary of their rows. -/
def summarised : ColumnPatch :=
  let schema := (Schema.vacant 2).afterSets
    [{ name := "A", position := 0, type := .uint8 }, { name := "B", position := 1, type := .uint16 }]
  { schema, count := 2
    summary := Summary.compute schema [1, 3, 0, 2, 4, 0]
    columns := [⟨.uint8, 2, .raw, [1, 2]⟩, ⟨.uint16, 2, .rle, [1, 3, 0, 1, 4, 0]⟩] }

/-- Turned around, with one dimension twice, and then without the other. -/
theorem reduce_summarised :
    ∃ q r, (Patch.columns summarised).reduce ["B", "a", "b"] = .ok (.columns q)
      ∧ (Patch.columns q).reduce ["b", "B"] = .ok r
      ∧ (Patch.columns summarised).reduce ["b", "B"] = .ok r := by
  let e : Engine := { deflate := Deflate.codec }
  have hb : summarised.schema.Built := (Schema.Built.vacant 2).afterSets _
  have hholds : summarised.Holds e.deflate
      [⟨.uint8, 2, .raw, [1, 2]⟩, ⟨.uint16, 2, .raw, [3, 0, 4, 0]⟩] :=
    ⟨.cons rfl (.cons rfl .nil), .cons ⟨rfl, rfl, rfl⟩ (.cons ⟨rfl, rfl, rfl⟩ .nil)⟩
  have hfound : ∀ name ∈ ["B", "a", "b"], ∃ i, summarised.schema.position? name = some i := by
    simp only [List.forall_mem_cons]
    exact ⟨⟨1, by decide⟩, ⟨0, by decide⟩, ⟨1, by decide⟩, by simp⟩
  obtain ⟨q, -, hq, -, -, -, hfewer⟩ := reduce_commutes (e := e) hb (by decide) (by decide)
    (wellFormed_columns_iff.2 ⟨_, hholds⟩) (hholds.toRows hb) rfl (by simp) hfound
  obtain ⟨r, hr, hdirect⟩ := hfewer ["b", "B"] (by
    simp only [List.forall_mem_cons]
    exact ⟨⟨"B", by simp, by decide⟩, ⟨"B", by simp, rfl⟩, by simp⟩)
  exact ⟨q, r, hq, hr, hdirect⟩

/-- A point of two dimensions that have traded places, with the summary of its row. -/
def traded : ColumnPatch :=
  let schema := (Schema.vacant 2).afterSets Schema.tradingPlaces
  { schema, count := 1
    summary := Summary.compute schema [1, 2]
    columns := [⟨.uint8, 1, .raw, [1]⟩, ⟨.uint8, 1, .raw, [2]⟩] }

/-- Of two dimensions that have traded places one is not found, although both have a name of their
own.  So a patch is not reduced to these two, while it is reduced to one of them. -/
theorem reduce_after_trading :
    let e : Engine := { deflate := Deflate.codec }
    traded.schema.isFilled = true
      ∧ traded.schema.dimensions.map (fun d => d.name) = ["B", "A"]
      ∧ (traded.schema.dimensions.map fun d => Text.lowercase d.name).Nodup
      ∧ 0 < traded.schema.size
      ∧ (∃ raw, (Patch.columns traded).toRows e = .ok raw
          ∧ traded.summary = Summary.compute traded.schema raw.rows)
      ∧ (Patch.columns traded).reduce ["A", "B"] = .error (.dimensionNotFound "A")
      ∧ ∃ r, (Patch.columns traded).reduce ["B"] = .ok r := by
  intro e
  have hholds : traded.Holds e.deflate traded.columns :=
    ⟨.cons rfl (.cons rfl .nil), .cons ⟨rfl, rfl, rfl⟩ (.cons ⟨rfl, rfl, rfl⟩ .nil)⟩
  have hb : traded.schema.Built := (Schema.Built.vacant 2).afterSets _
  refine ⟨by decide, by decide, by decide, by decide, ⟨_, hholds.toRows hb, rfl⟩, rfl, _, rfl⟩

end Patch

end PointPatch
