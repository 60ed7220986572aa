/-
PointPatch/Proofs/Patch/Interchange.lean

Rows and columns stand for each other.

With a header given, the rows of the length that it asks for and the raw columns
with as many elements as it counts points are in a one to one correspondence
(`bijOn_ofRows`): splitting rows leads one way and weaving columns the other.
The first half needs that each row is its fields one after another, the second
that a field that has been put into a row is not touched by the columns that
follow, so that it is found there again.

For patches it follows that either way and back is nothing but decoding the
columns (`transposition_bijective`).
-/
import PointPatch.Proofs.Patch.Canonicity
import Mathlib.Data.Set.Function

namespace PointPatch

namespace ColumnPatch

variable {z : ColumnCodec} {h : PatchHeader} {p : ColumnPatch} {raws : List Column}
  {rows : List UInt8}

/-- One raw column for each dimension, with an element for each point. -/
structure IsRaw (h : PatchHeader) (columns : List Column) : Prop where
  fits : h.schema.dimensions.Forall₂ (Fits h.count) columns
  mode_eq : ∀ c ∈ columns, c.mode = .raw

theorem isRaw_ofRows (hb : h.schema.Built) (hsize : 0 < h.schema.size)
    (hrows : rows.length = h.schema.size * h.count) :
    IsRaw h (ofRows (.ofHeader h rows)).columns := by
  have hcount : rows.length / h.schema.size = h.count := by
    rw [hrows, Nat.mul_div_cancel_left _ hsize]
  refine ⟨fits_gather hb hcount, fun c hc => ?_⟩
  obtain ⟨d, -, rfl⟩ := List.mem_map.1 hc
  rfl

/-- Raw columns hold what they are. -/
theorem IsRaw.holds {columns : List Column} (hraw : IsRaw h columns) :
    (ColumnPatch.mk h columns).Holds z columns where
  decode := forall₂_decode_raw hraw.mode_eq
  fits := hraw.fits

/-- The rows of one length and the raw columns of as many elements stand for each other one to
one. -/
theorem bijOn_ofRows (hb : h.schema.Built) (hsize : 0 < h.schema.size) :
    Set.BijOn (fun rows => (ofRows (.ofHeader h rows)).columns)
      {rows | rows.length = h.schema.size * h.count} {columns | IsRaw h columns} := by
  have hback : Set.LeftInvOn (wovenRows h.count) (fun rows => (ofRows (.ofHeader h rows)).columns)
      {rows | rows.length = h.schema.size * h.count} := by
    intro rows hrows
    have hcount : rows.length / h.schema.size = h.count := by
      rw [hrows, Nat.mul_div_cancel_left _ hsize]
    have hwhole : rows.length % h.schema.size = 0 := by rw [hrows, Nat.mul_mod_right]
    exact hcount ▸ wovenRows_gather hb hwhole
  have hforth : Set.RightInvOn (wovenRows h.count) (fun rows => (ofRows (.ofHeader h rows)).columns)
      {columns | IsRaw h columns} :=
    fun columns hraw => gather_wovenRows hb hraw.fits hraw.mode_eq
  exact Set.InvOn.bijOn ⟨hback, hforth⟩ (fun rows hrows => isRaw_ofRows hb hsize hrows)
    fun columns hraw => length_wovenRows hraw.fits

/-- Rows that are split into columns are put together again. -/
theorem toRows_ofRows {p : RowPatch} (hb : p.schema.Built)
    (hrows : p.rows.length = p.schema.size * p.count) :
    (ofRows p).toRows z = .ok (.ofHeader p.toPatchHeader p.rows) := by
  obtain ⟨raws, hholds, hwoven⟩ := exists_holds_ofRows (z := z) hb hrows
  rw [← hwoven]
  exact hholds.toRows hb

/-- Columns that are put together to rows are split again into what they decode to. -/
theorem Holds.ofRows_toRows (hb : p.schema.Built) (hp : p.Holds z raws) :
    ofRows (.ofHeader p.toPatchHeader (wovenRows p.count raws)) = { p with columns := raws } :=
  congrArg (ColumnPatch.mk p.toPatchHeader) (hp.eq_gather hb).symm

/-- Splitting rows into columns and putting columns together to rows are inverse to each other, with
the header going along both ways. -/
theorem transposition_bijective (hb : h.schema.Built) (hsize : 0 < h.schema.size) (e : Engine) :
    Set.BijOn (fun rows => (ofRows (.ofHeader h rows)).columns)
      {rows | rows.length = h.schema.size * h.count} {columns | IsRaw h columns}
    ∧ (∀ p : RowPatch, p.toPatchHeader = h → p.rows.length = h.schema.size * h.count →
        (ofRows p).toPatchHeader = h
        ∧ ∃ q, (ofRows p).toRows e.deflate = .ok q ∧ q.toPatchHeader = h ∧ q.rows = p.rows)
    ∧ (∀ columns, IsRaw h columns → ∃ q, (ColumnPatch.mk h columns).toRows e.deflate = .ok q
        ∧ q.toPatchHeader = h ∧ q.rows.length = h.schema.size * h.count ∧ ofRows q = .mk h columns)
    ∧ ∀ d : ColumnPatch, d.toPatchHeader = h → (Patch.columns d).WellFormed e →
        ∃ raw p, d.decode e.deflate = .ok raw ∧ IsRaw h raw.columns
          ∧ d.toRows e.deflate = .ok p ∧ p.toPatchHeader = h
          ∧ p.rows.length = h.schema.size * h.count ∧ ofRows p = raw := by
  refine ⟨bijOn_ofRows hb hsize, ?_, ?_, ?_⟩
  · rintro p rfl hrows
    exact ⟨rfl, _, toRows_ofRows hb hrows, rfl, rfl⟩
  · intro columns hraw
    have hholds : (ColumnPatch.mk h columns).Holds e.deflate columns := hraw.holds
    exact ⟨_, hholds.toRows hb, rfl, length_wovenRows hholds.fits, hholds.ofRows_toRows hb⟩
  · rintro d rfl hd
    obtain ⟨raws, hholds⟩ := Patch.wellFormed_columns_iff.1 hd
    exact ⟨_, _, hholds.decode_eq, ⟨hholds.fits, fun _ => hholds.mode_of_mem⟩, hholds.toRows hb, rfl,
      length_wovenRows hholds.fits, hholds.ofRows_toRows hb⟩

/-- The patch with a column in each mode, and its rows. -/
theorem transposition_bijective_specimen :
    let e : Engine := { deflate := Deflate.codec }
    0 < Schema.specimen.size
    ∧ (∃ raw p, specimen.decode e.deflate = .ok raw ∧ specimen.toRows e.deflate = .ok p
        ∧ p.rows.length = 54 ∧ ofRows p = raw)
    ∧ ∃ q, (ofRows (.ofHeader specimen.toPatchHeader (wovenRows 3 specimenRaw))).toRows e.deflate
        = .ok q ∧ q.rows = wovenRows 3 specimenRaw := by
  intro e
  have hsize : 0 < specimen.schema.size := by decide
  obtain ⟨-, hrows, -, hcolumns⟩ := transposition_bijective Schema.specimen_built hsize e
  refine ⟨hsize, ?_, ?_⟩
  · obtain ⟨raw, p, hraw, -, hp, -, hlength, hback⟩ :=
      hcolumns specimen rfl (Patch.wellFormed_columns_iff.2 ⟨_, specimen_holds⟩)
    exact ⟨raw, p, hraw, hp, hlength, hback⟩
  · obtain ⟨-, q, hq, -, hback⟩ := hrows (.ofHeader specimen.toPatchHeader (wovenRows 3 specimenRaw))
      rfl (length_wovenRows specimen_holds.fits)
    exact ⟨q, hq, hback⟩

end ColumnPatch

end PointPatch
