/-
PointPatch/Proofs/Patch/Canonicity.lean

What a patch is compressed to depends on its header and its rows alone.

The rows of a patch held as columns leave no choice of the raw columns: these
are what is gathered from the rows (`Holds.eq_gather`).  So two patches of one
header and one list of rows are held by the same raw columns
(`WellFormed.exists_same_columns`), and from these on both are stored in the
same course (`ColumnPatch.compress_congr`).  Form, modes and payloads in which
the patches came do not show in the result, nor in what the sampling has seen
(`compress_canonical`).

A patch that has been compressed has the rows that it had before.  It follows
that compressing it again, with nothing seen yet, gives the same columns
(`exists_compress_compress`).
-/
import PointPatch.Proofs.Patch.Compression

namespace PointPatch

/-! ### Columns -/

namespace ColumnPatch

variable {e : Engine} {z : ColumnCodec} {p q : ColumnPatch} {raws : List Column}

/-- What a patch holds is what is gathered from its rows. -/
theorem Holds.eq_gather (hb : p.schema.Built) (h : p.Holds z raws) :
    raws = p.schema.dimensions.map fun d =>
      Column.gather d.type (wovenRows p.count raws) p.schema.size d.byteOffset :=
  (gather_wovenRows hb h.fits fun _ hraw => h.mode_of_mem hraw).symm

/-- Patches with the same raw columns are stored in the same course. -/
theorem compress_congr (hp : p.Holds e.deflate raws) (hq : q.Holds e.deflate raws)
    (hheader : q.toPatchHeader = p.toPatchHeader) (s : Sampling) :
    q.compress e s = p.compress e s := by
  have hraw : ({ q with columns := raws } : ColumnPatch) = { p with columns := raws } :=
    congrArg (ColumnPatch.mk · raws) hheader
  rw [compress, compress, hp.decode_eq, hq.decode_eq, ok_bind, ok_bind, hraw]

end ColumnPatch

/-! ### Patches -/

namespace Patch

variable {e : Engine} {s s' : Sampling} {p q : Patch}

/-- The second patch is the first one, as far as what it holds goes: only the room that it has
for more rows may be another. -/
def SameContents : Patch → Patch → Prop
  | .rows p, .rows q => q.toPatchHeader = p.toPatchHeader ∧ q.rows = p.rows
  | .columns p, .columns q => q = p
  | .blob p, .blob q => q = p
  | _, _ => False

/-- Two patches can be held as rows, and the rows are the same. -/
def SameRows (e : Engine) (p q : Patch) : Prop :=
  ∃ raw raw', p.toRows e = .ok raw ∧ q.toRows e = .ok raw' ∧ raw'.rows = raw.rows

/-- Patches of one header and the same rows can be held as the same raw columns. -/
theorem WellFormed.exists_same_columns (hb : p.schema.Built) (hp : p.WellFormed e)
    (hq : q.WellFormed e) (hheader : q.header = p.header) (hrows : p.SameRows e q) :
    ∃ c c' raws, p.toColumns e = .ok c ∧ q.toColumns e = .ok c'
      ∧ c.toPatchHeader = p.header ∧ c'.toPatchHeader = c.toPatchHeader
      ∧ c.Holds e.deflate raws ∧ c'.Holds e.deflate raws := by
  have hschema : q.schema = p.schema := congrArg PatchHeader.schema hheader
  have hcount : q.count = p.count := congrArg PatchHeader.count hheader
  have hb' : q.schema.Built := by
    rw [hschema]
    exact hb
  obtain ⟨c, raws, raw, hc, hch, hholds, hraw, hwoven⟩ := hp.exists_toColumns hb
  obtain ⟨c', raws', raw', hc', hch', hholds', hraw', hwoven'⟩ := hq.exists_toColumns hb'
  have hsame : c'.toPatchHeader = c.toPatchHeader := by rw [hch', hch, hheader]
  have hcs : c.schema = p.schema := congrArg PatchHeader.schema hch
  have hcc : c.count = p.count := congrArg PatchHeader.count hch
  have hcs' : c'.schema = c.schema := congrArg PatchHeader.schema hsame
  have hcc' : c'.count = c.count := congrArg PatchHeader.count hsame
  -- both lists of raw columns are gathered from the same rows
  have hequal : raws' = raws := by
    obtain ⟨r, r', hr, hr', hrr⟩ := hrows
    cases hr.symm.trans hraw
    cases hr'.symm.trans hraw'
    rw [hwoven, hwoven', hcount] at hrr
    rw [hholds.eq_gather (by rw [hcs]; exact hb), hholds'.eq_gather (by rw [hcs', hcs]; exact hb),
      hcs', hcc', hcc, hrr]
  exact ⟨c, c', raws, hc, hc', hch, hsame, hholds, hequal ▸ hholds'⟩

/-- Patches that are to be held as columns are compressed in the same course. -/
theorem compress_columns_congr (hb : p.schema.Built) (hp : p.WellFormed e) (hq : q.WellFormed e)
    (hheader : q.header = p.header) (hrows : p.SameRows e q)
    (htarget : p.schema.target = .columns) (s : Sampling) :
    q.compress e s = p.compress e s := by
  have htarget' : q.schema.target = .columns :=
    (congrArg (fun h => h.schema.target) hheader).trans htarget
  obtain ⟨c, c', raws, hc, hc', -, hsame, hholds, hholds'⟩ :=
    hp.exists_same_columns hb hq hheader hrows
  rw [compress_eq_of_toColumns htarget hc, compress_eq_of_toColumns htarget' hc',
    ColumnPatch.compress_congr hholds hholds' hsame]

/-- A patch that is to be held as rows is compressed to its rows. -/
theorem exists_compress_rows (htarget : p.schema.target = .rows) {raw : RowPatch}
    (hraw : p.toRows e = .ok raw) (s : Sampling) : p.compress e s = .ok (.rows raw, s) := by
  by_cases hsettled : p.isSettled = true
  · -- it is held as rows already
    have hform := (form_eq_of_isSettled hsettled).trans htarget
    cases p with
    | rows p =>
      cases hraw
      exact if_pos hsettled
    | columns p => cases hform
    | blob p => cases hform
  · rw [compress, if_neg hsettled, htarget]
    exact bind_eq_ok_iff.2 ⟨raw, hraw, rfl⟩

/-- Compressing what a patch has been compressed to, with nothing seen yet as before, gives the
same once more. -/
theorem exists_compress_compress (hb : p.schema.Built) (hf : p.schema.isFilled = true)
    (hp : p.WellFormed e) (hz : e.deflate.Lossless) (htarget : p.schema.target = .columns)
    (hmem : ∀ d ∈ p.schema.dimensions, e.deflate.memory.grants (p.count * d.size) = true) :
    ∃ q s', p.compress e (.start p.schema) = .ok (q, s')
      ∧ q.compress e (.start q.schema) = .ok (q, s') := by
  have hs : (Sampling.start p.schema).tallies.length = p.schema.slotCount :=
    List.length_replicate
  obtain ⟨stored, s', hstored, hheader, hrows⟩ :=
    exists_compress_columns hb hf hp hz hs hmem htarget
  have hschema : (Patch.columns stored).schema = p.schema := congrArg PatchHeader.schema hheader
  -- what has been stored can be read again, as it is
  obtain ⟨c, raws, -, hc, hch, hholds, -⟩ := hp.exists_toColumns hb
  have hwell : (Patch.columns stored).WellFormed e := by
    rw [compress_eq_of_toColumns htarget hc] at hstored
    obtain ⟨⟨stored', t⟩, hcompress, h⟩ := bind_eq_ok_iff.1 hstored
    cases h
    have hmem' : ∀ d ∈ c.schema.dimensions, e.deflate.memory.grants (c.count * d.size) = true := by
      have hcs : c.schema = p.schema := congrArg PatchHeader.schema hch
      have hcc : c.count = p.count := congrArg PatchHeader.count hch
      rw [hcs, hcc]
      exact hmem
    exact wellFormed_columns_iff.2 ⟨raws, (hholds.of_compress hz hmem' hcompress).2⟩
  refine ⟨.columns stored, s', hstored, ?_⟩
  rw [hschema, compress_columns_congr hb hp hwell hheader hrows htarget]
  exact hstored

/-- Patches of one header and the same rows, each in any form, any modes and any payloads, are
compressed to the same form and the same contents, and leave the same sampling behind.  In
particular, what a patch has been compressed to stays as it is when it is compressed again. -/
theorem compress_canonical (hb : p.schema.Built) (hf : p.schema.isFilled = true)
    (htarget : p.schema.target ≠ .blob) (hp : p.WellFormed e) (hq : q.WellFormed e)
    (hheader : q.header = p.header) (hrows : p.SameRows e q)
    (hs : s.tallies.length = p.schema.slotCount) :
    (∃ r r' s', p.compress e s = .ok (r, s') ∧ q.compress e s = .ok (r', s')
        ∧ r.form = p.schema.target ∧ r.SameContents r')
      ∧ (p.schema.target = .columns → e.deflate.Lossless →
        (∀ d ∈ p.schema.dimensions, e.deflate.memory.grants (p.count * d.size) = true) →
        ∃ r s', p.compress e (.start p.schema) = .ok (r, s')
          ∧ r.compress e (.start r.schema) = .ok (r, s')) := by
  constructor
  swap
  · intro hcolumns hz hmem
    exact exists_compress_compress hb hf hp hz hcolumns hmem
  rcases hform : p.schema.target with - | - | -
  · -- to rows
    have hform' : q.schema.target = .rows :=
      (congrArg (fun h => h.schema.target) hheader).trans hform
    obtain ⟨raw, raw', hraw, hraw', hequal⟩ := hrows
    refine ⟨.rows raw, .rows raw', s, exists_compress_rows hform hraw s,
      exists_compress_rows hform' hraw' s, rfl, ?_, hequal⟩
    rw [header_of_toRows hraw, header_of_toRows hraw', hheader]
  · exact absurd hform htarget
  · -- to columns
    obtain ⟨c, -, raws, hc, -, hch, -, hholds, -⟩ := hp.exists_same_columns hb hq hheader hrows
    have hschema : c.schema = p.schema := congrArg PatchHeader.schema hch
    obtain ⟨stored, s', hstored⟩ := ColumnPatch.exists_compress (e := e) (s := s)
      (by rw [hschema]; exact hf) (by rw [hschema]; exact hs) hholds
    have hcompress : p.compress e s = .ok (.columns stored, s') := by
      rw [compress_eq_of_toColumns hform hc, hstored]
      rfl
    refine ⟨.columns stored, .columns stored, s', hcompress, ?_, rfl, rfl⟩
    rw [compress_columns_congr hb hp hq hheader hrows hform]
    exact hcompress

/-- Columns whose runs could be fewer and whose shared bits could be more are compressed to what
their rows are compressed to. -/
theorem compress_canonical_specimen :
    let e : Engine := { deflate := Deflate.codec }
    let p : Patch := .columns .specimen
    let q : Patch := .rows (.ofHeader p.header (ColumnPatch.wovenRows 3 ColumnPatch.specimenRaw))
    let s : Sampling := ⟨20000, 5, [⟨9, 4, .sigbits⟩, ⟨7, 0, .deflate⟩, ⟨0, 0, .rle⟩, ⟨1, 1, .raw⟩]⟩
    (∃ r r' s', p.compress e s = .ok (r, s') ∧ q.compress e s = .ok (r', s')
        ∧ r.form = .columns ∧ r.SameContents r')
      ∧ ∃ r s', p.compress e (.start p.schema) = .ok (r, s')
          ∧ r.compress e (.start r.schema) = .ok (r, s') := by
  intro e p q s
  have hrows : p.toRows e = .ok _ := ColumnPatch.specimen_holds.toRows Schema.specimen_built
  have hcanonical := compress_canonical (e := e) (p := p) (q := q) (s := s) Schema.specimen_built
    (by decide) (by decide) (wellFormed_columns_iff.2 ⟨_, ColumnPatch.specimen_holds⟩) (by
      show (ColumnPatch.wovenRows 3 ColumnPatch.specimenRaw).length = _
      decide) rfl ⟨_, _, hrows, rfl, rfl⟩ rfl
  exact ⟨hcanonical.1, hcanonical.2 rfl Deflate.codec_lossless (by decide)⟩

end Patch

end PointPatch
