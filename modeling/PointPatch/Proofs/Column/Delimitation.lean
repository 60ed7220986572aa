/-
PointPatch/Proofs/Column/Delimitation.lean

Where a column ends.

A column says how long it is before anything that is as long as its values.
So it can be told from what stands in front of some bytes where its entry
ends, whatever comes behind it: two entries that begin the same bytes are the
same (`entry_append_inj`).

What has been written of a column can be read with more behind it.  The
reader takes off what was written and nothing else, and the column that it
returns decodes to what the first one decodes to (`read_write_append`).  This
is not asked of columns that were encoded alone: runs may be shorter than they
could be, and shared bits may be followed by more than is read.
-/
import PointPatch.Proofs.Column.Message

namespace PointPatch

theorem Word.toBytes_inj {order : ByteOrder} {w m n : Nat} (hm : m < 256 ^ w) (hn : n < 256 ^ w)
    (h : Word.toBytes order w m = Word.toBytes order w n) : m = n := by
  rw [← Word.ofBytes_toBytes order hm, h, Word.ofBytes_toBytes order hn]

theorem Mode.tag_inj {m m' : Mode} (h : m.tag = m'.tag) : m = m' := by
  have hm := Mode.ofTag?_tag m
  rw [h, Mode.ofTag?_tag] at hm
  exact (Option.some.inj hm).symm

namespace Column

variable {z : ColumnCodec} {level level' : Nat} {order : ByteOrder} {type : Interpretation}
variable {count : Nat} {c raw : Column}

/-- Bytes begin with one entry at most. -/
theorem entry_append_inj {w w' : Column} {rest rest' : List UInt8} (hw : w.IsEntry type count)
    (hw' : w'.IsEntry type count) (h : w.entry order ++ rest = w'.entry order ++ rest') :
    w = w' ∧ rest = rest' := by
  rw [entry, entry, List.cons_append, List.cons_append, List.append_assoc, List.append_assoc] at h
  obtain ⟨htag, h⟩ := List.cons.inj h
  -- the length fields take four bytes each, and so the payloads are of one length
  obtain ⟨hfield, h⟩ := List.append_inj h (by rw [Word.length_toBytes, Word.length_toBytes])
  have hlength := Word.toBytes_inj hw.length_lt hw'.length_lt hfield
  obtain ⟨hpayload, hrest⟩ := List.append_inj h hlength
  obtain ⟨type', count', mode, payload⟩ := w
  obtain ⟨type'', count'', mode', payload'⟩ := w'
  obtain ⟨rfl, rfl, -, -⟩ := hw
  obtain ⟨rfl, rfl, -, -⟩ := hw'
  obtain rfl : mode = mode' := Mode.tag_inj htag
  obtain rfl : payload = payload' := hpayload
  exact ⟨rfl, hrest⟩

/-! ### Whole columns -/

theorem isWhole_of_ofRaw {bytes : List UInt8} (h : ofRaw type bytes = .ok c) : c.IsWhole := by
  rw [ofRaw] at h
  split at h
  · cases h
  · rename_i hwhole
    cases h
    intro _
    exact (Nat.div_mul_cancel (Nat.dvd_of_mod_eq_zero (not_not.1 hwhole))).symm

/-- What a whole column is stored as is whole. -/
theorem IsWhole.encode {mode : Mode} (h : raw.IsWhole) (hc : raw.encode z level mode = .ok c) :
    c.IsWhole := by
  rw [Column.encode] at hc
  obtain ⟨_, hraw, hc⟩ := bind_eq_ok_iff.1 hc
  cases mode with
  | raw =>
    cases hc
    rw [requireRaw] at hraw
    split at hraw
    · rename_i hmode
      exact fun _ => h hmode
    · cases hraw
  | rle =>
    cases hc
    exact fun hmode => by cases hmode
  | sigbits =>
    obtain ⟨payload, -, hc⟩ := bind_eq_ok_iff.1 hc
    cases hc
    exact fun hmode => by cases hmode
  | deflate =>
    cases hc
    exact fun hmode => by cases hmode

/-- What has been read is whole. -/
theorem isWhole_of_read {cursor cursor' : Cursor}
    (h : read z level order type count cursor = .ok (c, cursor')) : c.IsWhole := by
  obtain ⟨w, hentry, hturn, -, -⟩ := read_eq_ok_iff.1 h
  exact hentry.isWhole.toOrder hturn

/-! ### Reading what has been written -/

/-- A column that can be decoded can be written and, with anything behind it, read again.  The
reader stops right behind what was written.  The column that it returns is of the same type, count
and mode and decodes to the same elements; it is the same one, unless it is a stream of elements of
several bytes that had to be packed again for a foreign order. -/
theorem read_write_append (hz : z.Lossless) (hdecode : c.decode z = .ok raw) (hwhole : c.IsWhole)
    (hfits : ∀ w, c.toOrder z level order = .ok w → w.payload.length < 256 ^ 4) (level' : Nat)
    (suffix : List UInt8) :
    ∃ message c', c.write z level order = .ok message
      ∧ read z level' order c.type c.count (.start (message ++ suffix))
        = .ok (c', ⟨message.length, suffix⟩)
      ∧ c'.type = c.type ∧ c'.count = c.count ∧ c'.mode = c.mode
      ∧ c'.decode z = .ok raw
      ∧ ((c.mode = .deflate → order = .machine ∨ c.type.size ≤ 1) → c' = c) := by
  obtain ⟨bytes, hcontent, rfl⟩ := decode_eq_ok_iff.1 hdecode
  obtain ⟨w, hw⟩ : ∃ w, c.toOrder z level order = .ok w := exists_toOrder hcontent
  obtain ⟨c', hback, hcontent', hexact⟩ := exists_toOrder_back hz hw level'
  have hentry : w.IsEntry c.type c.count := isEntry_of_toOrder hw hwhole (hfits w hw)
  have htype : c'.type = c.type := (type_of_toOrder hback).trans (type_of_toOrder hw)
  have hcount : c'.count = c.count := (count_of_toOrder hback).trans (count_of_toOrder hw)
  have hmode : c'.mode = c.mode := (mode_of_toOrder hback).trans (mode_of_toOrder hw)
  refine ⟨w.entry order, c', write_eq_ok_iff.2 ⟨w, hw, rfl⟩, ?_, htype, hcount, hmode, ?_, ?_⟩
  · refine read_eq_ok_iff.2 ⟨w, hentry, hback, rfl, ?_⟩
    show (w.entry order).length = 0 + w.wireSize
    rw [length_entry, Nat.zero_add]
  · exact decode_eq_ok_iff.2 ⟨bytes, hcontent'.trans hcontent, by rw [htype, hcount]⟩
  · exact fun hnarrow => hexact (turnsExactly_of_narrow hnarrow)

/-- Runs that could have been one, most significant bytes first, with two bytes behind them. -/
theorem read_write_append_split :
    ∃ message, write Deflate.codec 6 .big ⟨.int16, 3, .rle, [1, 7, 8, 2, 7, 8]⟩ = .ok message
      ∧ read Deflate.codec 6 .big .int16 3 (.start (message ++ [9, 9]))
        = .ok (⟨.int16, 3, .rle, [1, 7, 8, 2, 7, 8]⟩, ⟨message.length, [9, 9]⟩) := by
  have hdecode : decode Deflate.codec ⟨.int16, 3, .rle, [1, 7, 8, 2, 7, 8]⟩
      = .ok ⟨.int16, 3, .raw, [7, 8, 7, 8, 7, 8]⟩ := by rfl
  have hwhole : IsWhole ⟨.int16, 3, .rle, [1, 7, 8, 2, 7, 8]⟩ := fun hraw => by cases hraw
  have hfits : ∀ w, toOrder Deflate.codec 6 .big ⟨.int16, 3, .rle, [1, 7, 8, 2, 7, 8]⟩ = .ok w →
      w.payload.length < 256 ^ 4 := by
    intro w hw
    cases hw
    decide
  obtain ⟨message, c', hwrite, hread, -, -, -, -, hsame⟩ :=
    read_write_append Deflate.codec_lossless hdecode hwhole hfits 6 [9, 9]
  obtain rfl := hsame fun hmode => by cases hmode
  exact ⟨message, hwrite, hread⟩

end Column

end PointPatch
