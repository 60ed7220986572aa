/-
PointPatch/Proofs/Column/ByteOrder.lean

Columns on their way into a message and out of it again.

The same turn leads both ways.  For raw values, runs and shared bits it is an
involution on every payload, well-formed or not, because it works in place
(`toOrder_toOrder`).  A compressed stream is unpacked and packed again, so two
turns lead to a stream of the same content, not to the same stream
(`exists_toOrder_deflate`).  The two turns may pack at different levels.

Either way a column has after two turns the content that it had before
(`exists_toOrder_back`), and stores what it stored (`Stores.toOrder_toOrder`).
-/
import PointPatch.Column.Wire
import PointPatch.Proofs.Column.Storage

namespace PointPatch

namespace Column

variable {z : ColumnCodec} {level level' : Nat} {order : ByteOrder} {type : Interpretation}
variable {count : Nat} {bytes : List UInt8} {c c' c'' : Column}

/-! ### Exact turns -/

/-- Whether a column is turned around in place, or not at all, for a message of the given
order. -/
def TurnsExactly (c : Column) (order : ByteOrder) : Prop :=
  c.mode = .deflate → c.needsFlip order = false

theorem toOrder_of_needsFlip_eq_false (h : c.needsFlip order = false) :
    c.toOrder z level order = .ok c := by
  rw [toOrder, h]
  rfl

theorem toOrder_of_needsFlip (h : c.needsFlip order = true) :
    c.toOrder z level order = c.flip z level := by
  rw [toOrder, h]
  rfl

/-- In machine order every column stays as it is. -/
theorem needsFlip_machine (c : Column) : c.needsFlip .machine = false := rfl

/-- A stream has to be packed again for elements of several bytes in a foreign order only. -/
theorem turnsExactly_of_narrow (h : c.mode = .deflate → order = .machine ∨ c.type.size ≤ 1) :
    c.TurnsExactly order := by
  intro hmode
  rcases h hmode with rfl | hnarrow
  · exact needsFlip_machine c
  · rw [needsFlip, decide_eq_false (Nat.not_lt.2 hnarrow), Bool.and_false]

/-- Only a stream may have to be packed again. -/
theorem turnsExactly_of_mode_ne (h : c.mode ≠ .deflate) : c.TurnsExactly order :=
  fun hmode => absurd hmode h

theorem flip_flip_of_mode_ne (hmode : c.mode ≠ .deflate) (h : c.flip z level = .ok c') :
    c'.flip z level' = .ok c := by
  obtain ⟨type, count, mode, payload⟩ := c
  cases mode with
  | raw =>
    cases h
    show Except.ok (Column.mk _ _ _ (reverseChunks type.size (reverseChunks type.size payload))) = _
    rw [reverseChunks_reverseChunks]
  | rle =>
    cases h
    show Except.ok (Column.mk _ _ _ (RunLength.flip type.size (RunLength.flip type.size payload)))
      = _
    rw [RunLength.flip_flip]
  | sigbits =>
    cases h
    show Except.ok (Column.mk _ _ _ (Sigbits.flip type.size (Sigbits.flip type.size payload))) = _
    rw [Sigbits.flip_flip]
  | deflate => exact absurd rfl hmode

/-! ### Streams turned around -/

theorem flip_deflate_eq_ok_iff (hmode : c.mode = .deflate) :
    c.flip z level = .ok c' ↔
      ∃ content, Deflate.decode z c.rawLength c.payload = .ok content
        ∧ c' = { c with payload := z.pack level (reverseChunks c.type.size content) } := by
  obtain ⟨type, count, mode, payload⟩ := c
  obtain rfl : mode = .deflate := hmode
  show (Deflate.decode z _ payload >>= fun _ => _) = _ ↔ _
  rw [bind_eq_ok_iff]
  constructor
  · rintro ⟨content, hcontent, h⟩
    cases h
    exact ⟨content, hcontent, rfl⟩
  · rintro ⟨content, hcontent, rfl⟩
    exact ⟨content, hcontent, rfl⟩

/-! ### What a turn keeps -/

/-- A turn changes nothing but the payload. -/
theorem eq_of_flip (h : c.flip z level = .ok c') : c' = { c with payload := c'.payload } := by
  obtain ⟨type, count, mode, payload⟩ := c
  cases mode with
  | raw => cases h; rfl
  | rle => cases h; rfl
  | sigbits => cases h; rfl
  | deflate =>
    obtain ⟨content, -, rfl⟩ := (flip_deflate_eq_ok_iff rfl).1 h
    rfl

theorem eq_of_toOrder (h : c.toOrder z level order = .ok c') :
    c' = { c with payload := c'.payload } := by
  rw [toOrder] at h
  split at h
  · exact eq_of_flip h
  · cases h
    rfl

theorem type_of_toOrder (h : c.toOrder z level order = .ok c') : c'.type = c.type := by
  rw [eq_of_toOrder h]

theorem count_of_toOrder (h : c.toOrder z level order = .ok c') : c'.count = c.count := by
  rw [eq_of_toOrder h]

theorem mode_of_toOrder (h : c.toOrder z level order = .ok c') : c'.mode = c.mode := by
  rw [eq_of_toOrder h]

theorem needsFlip_of_toOrder (h : c.toOrder z level order = .ok c') :
    c'.needsFlip order = c.needsFlip order := by
  rw [needsFlip, needsFlip, type_of_toOrder h]

/-- A turn in place keeps the length of the payload. -/
theorem length_payload_of_toOrder (hexact : c.TurnsExactly order)
    (h : c.toOrder z level order = .ok c') : c'.payload.length = c.payload.length := by
  rcases hflip : c.needsFlip order with - | -
  · rw [toOrder_of_needsFlip_eq_false hflip] at h
    cases h
    rfl
  · rw [toOrder_of_needsFlip hflip] at h
    obtain ⟨type, count, mode, payload⟩ := c
    cases mode with
    | raw => cases h; exact length_reverseChunks type.size payload
    | rle => cases h; exact RunLength.length_flip type.size payload
    | sigbits => cases h; exact Sigbits.length_flip type.size payload
    | deflate => exact absurd (hexact rfl) (by rw [hflip]; decide)

/-- A column that is not raw, or has the bytes of as many elements as it counts. -/
def IsWhole (c : Column) : Prop := c.mode = .raw → c.payload.length = c.count * c.type.size

theorem IsWhole.toOrder (h : c.IsWhole) (hturn : c.toOrder z level order = .ok c') :
    c'.IsWhole := by
  intro hraw
  have hraw : c.mode = .raw := (mode_of_toOrder hturn).symm.trans hraw
  have hexact : c.TurnsExactly order := turnsExactly_of_mode_ne (by rw [hraw]; decide)
  rw [length_payload_of_toOrder hexact hturn, count_of_toOrder hturn, type_of_toOrder hturn]
  exact h hraw

/-! ### Two turns -/

/-- Where a turn is made in place, a second one undoes it. -/
theorem toOrder_toOrder (hexact : c.TurnsExactly order) (h : c.toOrder z level order = .ok c') :
    c'.toOrder z level' order = .ok c := by
  have hback := needsFlip_of_toOrder h
  rcases hflip : c.needsFlip order with - | -
  · rw [toOrder_of_needsFlip_eq_false hflip] at h
    cases h
    exact toOrder_of_needsFlip_eq_false hflip
  · rw [toOrder_of_needsFlip hflip] at h
    rw [toOrder_of_needsFlip (hback.trans hflip)]
    refine flip_flip_of_mode_ne (fun hmode => ?_) h
    rw [hexact hmode] at hflip
    cases hflip

/-- A stream that has been turned around can be turned back, to a stream of the same content. -/
theorem exists_toOrder_deflate (hz : z.Lossless) (hmode : c.mode = .deflate)
    (hflip : c.needsFlip order = true) (h : c.toOrder z level order = .ok c') (level' : Nat) :
    ∃ content, Deflate.decode z c.rawLength c.payload = .ok content
      ∧ c'.toOrder z level' order = .ok { c with payload := z.pack level' content }
      ∧ Deflate.decode z c.rawLength (z.pack level' content) = .ok content := by
  have hflip' := (needsFlip_of_toOrder h).trans hflip
  rw [toOrder_of_needsFlip hflip] at h
  obtain ⟨content, hcontent, rfl⟩ := (flip_deflate_eq_ok_iff hmode).1 h
  have hlen := Deflate.length_of_decode hcontent
  -- both streams that are packed on the way hold as much as the first one held
  have hagain : Deflate.decode z c.rawLength (z.pack level' content) = .ok content := by
    rw [← hlen]
    exact deflate_decode_pack hz level' content
  have hturned : Deflate.decode z c.rawLength (z.pack level (reverseChunks c.type.size content))
      = .ok (reverseChunks c.type.size content) := by
    rw [← hlen, ← length_reverseChunks c.type.size content]
    exact deflate_decode_pack hz level _
  refine ⟨content, hcontent, ?_, hagain⟩
  rw [toOrder_of_needsFlip hflip']
  apply (flip_deflate_eq_ok_iff (by exact hmode)).2
  refine ⟨reverseChunks c.type.size content, hturned, ?_⟩
  rw [reverseChunks_reverseChunks]

/-- A column that can be decoded can be turned around. -/
theorem exists_toOrder (h : c.content z = .ok bytes) : ∃ c', c.toOrder z level order = .ok c' := by
  rcases hflip : c.needsFlip order with - | -
  · exact ⟨c, toOrder_of_needsFlip_eq_false hflip⟩
  · rw [toOrder_of_needsFlip hflip]
    obtain ⟨type, count, mode, payload⟩ := c
    cases mode with
    | raw => exact ⟨_, rfl⟩
    | rle => exact ⟨_, rfl⟩
    | sigbits => exact ⟨_, rfl⟩
    | deflate => exact ⟨_, (flip_deflate_eq_ok_iff rfl).2 ⟨bytes, h, rfl⟩⟩

/-- A column that has been turned around can be turned back.  It has its content then, and is the
same column unless its stream was packed again. -/
theorem exists_toOrder_back (hz : z.Lossless) (h : c.toOrder z level order = .ok c')
    (level' : Nat) :
    ∃ c'', c'.toOrder z level' order = .ok c'' ∧ c''.content z = c.content z
      ∧ (c.TurnsExactly order → c'' = c) := by
  by_cases hexact : c.TurnsExactly order
  · exact ⟨c, Column.toOrder_toOrder hexact h, rfl, fun _ => rfl⟩
  · obtain ⟨hmode, hflip⟩ := Classical.not_imp.1 hexact
    obtain ⟨content, hcontent, hback, hagain⟩ :=
      exists_toOrder_deflate hz hmode (Bool.eq_true_of_not_eq_false hflip) h level'
    refine ⟨_, hback, ?_, fun h => absurd h hexact⟩
    rw [Column.content, Column.content]
    simp only [hmode]
    exact hagain.trans hcontent.symm

/-- A column can be turned around twice, and then stores what it stored before, in the same
mode. -/
theorem Stores.toOrder_toOrder (hz : z.Lossless) (h : c.Stores z type count bytes)
    (hturn : c.toOrder z level order = .ok c') :
    ∃ c'', c'.toOrder z level order = .ok c'' ∧ c''.mode = c.mode ∧ c''.Stores z type count bytes := by
  obtain ⟨c'', hback, hcontent, -⟩ := exists_toOrder_back hz hturn level
  exact ⟨c'', hback, (mode_of_toOrder hback).trans (mode_of_toOrder hturn),
    ((type_of_toOrder hback).trans (type_of_toOrder hturn)).trans h.type_eq,
    ((count_of_toOrder hback).trans (count_of_toOrder hturn)).trans h.count_eq,
    hcontent.trans h.content_eq, h.length_bytes⟩

end Column

end PointPatch
