/-
PointPatch/Proofs/Column/Validity.lean

Which payloads a message may hold.

What a payload of each mode has to be is said of its bytes as they stand in
the message (`Mode.Admits`): as many bytes as the values take, whole pairs of
runs that are not empty and make up the values, two words and enough of a
stream, or a stream of the right content.  Only the first of the two words is
read in the byte order of the message.  Values whose shared bits are left out
take memory that the payload gives no measure of; so this is the one mode in
which a column may be refused for want of it.

A payload is turned around before anything but its length is checked.  That
makes no difference: a column of the message can be had and decoded exactly if
its payload is what it has to be (`exists_stores_iff_admits`).
-/
import PointPatch.Proofs.Column.ByteOrder

namespace PointPatch

variable {z : ColumnCodec} {level : Nat} {order : ByteOrder}

/-- Whether the payload of a column of `count` elements of `size` bytes may stand in a message of
the given byte order. -/
def Mode.Admits (z : ColumnCodec) (order : ByteOrder) (size count : Nat) (payload : List UInt8) :
    Mode → Prop
  | raw => payload.length = count * size
  | rle => ∃ runs, RunLength.IsRuns size count runs ∧ payload = runs.flatMap RunLength.pairBytes
  | sigbits => 2 * size ≤ payload.length
      ∧ Word.ofBytes order (payload.take size) ≤ 8 * size
      ∧ (count * (8 * size - Word.ofBytes order (payload.take size)) + 7) / 8
        ≤ payload.length - 2 * size
      ∧ z.memory.grants (count * size) = true
  | deflate => ∃ content, z.unpack (count * size + 1) payload = some content
      ∧ content.length = count * size

/-! ### Runs -/

namespace RunLength

/-- Turning around the elements of runs does not change which payloads can be decoded. -/
theorem exists_decode_flip_iff {size count : Nat} {payload : List UInt8} :
    (∃ out, decode size count (flip size payload) = .ok out) ↔
      ∃ runs, IsRuns size count runs ∧ payload = runs.flatMap pairBytes := by
  constructor
  · rintro ⟨out, h⟩
    obtain ⟨runs, hruns, hpayload, -⟩ := decode_eq_ok_iff.1 h
    refine ⟨runs.map flipRun, hruns.flip, ?_⟩
    rw [← flip_flatMap_pairBytes hruns.length_value, ← hpayload, flip_flip]
  · rintro ⟨runs, hruns, rfl⟩
    rw [flip_flatMap_pairBytes hruns.length_value]
    exact ⟨_, decode_flatMap_pairBytes hruns.flip⟩

theorem exists_decode_iff {size count : Nat} {payload : List UInt8} :
    (∃ out, decode size count payload = .ok out) ↔
      ∃ runs, IsRuns size count runs ∧ payload = runs.flatMap pairBytes := by
  constructor
  · rintro ⟨out, h⟩
    obtain ⟨runs, hruns, hpayload, -⟩ := decode_eq_ok_iff.1 h
    exact ⟨runs, hruns, hpayload⟩
  · rintro ⟨runs, hruns, rfl⟩
    exact ⟨_, decode_flatMap_pairBytes hruns⟩

end RunLength

/-! ### Shared bits -/

namespace Sigbits

variable {memory : Memory} {size count : Nat} {payload : List UInt8}

/-- What has to be there, where the number of elements comes from a message. -/
theorem isReadable_iff (hsize : size ≤ 8) (hcount : count < 256 ^ 4) :
    IsReadable memory size count payload ↔ 2 * size ≤ payload.length
      ∧ Word.ofLittle (payload.take size) ≤ 8 * size
      ∧ (count * (8 * size - Word.ofLittle (payload.take size)) + 7) / 8
        ≤ payload.length - 2 * size
      ∧ memory.grants (count * size) = true := by
  have hstream : streamBytes count (8 * size - Word.ofLittle (payload.take size))
      = (count * (8 * size - Word.ofLittle (payload.take size)) + 7) / 8 := by
    have hbits : count * (8 * size - Word.ofLittle (payload.take size)) ≤ count * (8 * 8) :=
      Nat.mul_le_mul_left count (by omega)
    exact streamBytes_of_lt (by omega)
  constructor
  · rintro ⟨hheader, hshared, hlong, hgranted⟩
    rw [hstream] at hlong
    exact ⟨hheader, hshared, by omega, hgranted⟩
  · rintro ⟨hheader, hshared, hlong, hgranted⟩
    refine ⟨hheader, hshared, ?_, hgranted⟩
    rw [hstream]
    omega

/-- The payloads that can be decoded once their opening words have been turned around. -/
theorem exists_decode_flip_iff (hsupported : isSupported size = true) (hsize : size ≤ 8)
    (hcount : count < 256 ^ 4) :
    (∃ out, decode size count (flip size payload) z.memory = .ok out) ↔
      Mode.Admits z .big size count payload .sigbits := by
  rw [exists_decode_iff hsupported, isReadable_iff hsize hcount, length_flip]
  show _ ↔ 2 * size ≤ payload.length ∧ Word.ofLittle (payload.take size).reverse ≤ 8 * size ∧ _
  constructor
  · -- the number of shared bits is the first word, read in the other order
    rintro ⟨hheader, hrest⟩
    rw [take_flip hheader] at hrest
    exact ⟨hheader, hrest⟩
  · rintro ⟨hheader, hrest⟩
    rw [take_flip hheader]
    exact ⟨hheader, hrest⟩

end Sigbits

/-! ### Columns -/

namespace Column

variable {type : Interpretation} {count : Nat} {mode : Mode} {payload : List UInt8}

theorem rawLength_eq (hlt : count < 256 ^ 4) :
    rawLength ⟨type, count, mode, payload⟩ = count * type.size := by
  have hsize : count * type.size ≤ count * 8 := Nat.mul_le_mul_left count type.size_le
  show min (count * type.size) (2 ^ 64 - 1) = _
  rw [Nat.min_eq_left (by omega)]

/-- A column that is not raw stores whatever it decodes to. -/
theorem exists_stores_iff_content (hmode : mode ≠ .raw) (hlt : count < 256 ^ 4) :
    (∃ bytes, Stores z type count bytes ⟨type, count, mode, payload⟩) ↔
      ∃ bytes, content z ⟨type, count, mode, payload⟩ = .ok bytes := by
  constructor
  · rintro ⟨bytes, h⟩
    exact ⟨bytes, h.content_eq⟩
  · rintro ⟨bytes, h⟩
    have hsize : count * type.size ≤ count * 8 := Nat.mul_le_mul_left count type.size_le
    refine ⟨bytes, rfl, rfl, h, length_of_content hmode h ?_⟩
    show count * type.size < 2 ^ 64
    omega

theorem exists_decode_stream_iff {expected : Nat} :
    (∃ content, Deflate.decode z expected payload = .ok content) ↔
      ∃ content, z.unpack (expected + 1) payload = some content ∧ content.length = expected := by
  rw [Deflate.decode]
  cases z.unpack (expected + 1) payload with
  | none => simp
  | some content =>
    by_cases hlength : content.length = expected
    · simp [hlength]
    · simp [hlength]

/-- A column can be decoded exactly if its payload is what it has to be in machine order. -/
theorem exists_stores_iff_admits_little (hlt : count < 256 ^ 4) :
    (∃ bytes, Stores z type count bytes ⟨type, count, mode, payload⟩) ↔
      mode.Admits z .little type.size count payload := by
  cases mode with
  | raw =>
    constructor
    · rintro ⟨bytes, -, -, hcontent, hlength⟩
      cases hcontent
      exact hlength
    · intro h
      exact ⟨payload, stores_raw h⟩
  | rle =>
    refine (exists_stores_iff_content (by simp) hlt).trans ?_
    exact RunLength.exists_decode_iff
  | sigbits =>
    refine (exists_stores_iff_content (by simp) hlt).trans ?_
    refine (Sigbits.exists_decode_iff (Sigbits.isSupported_size type)).trans ?_
    exact Sigbits.isReadable_iff type.size_le hlt
  | deflate =>
    refine (exists_stores_iff_content (by simp) hlt).trans ?_
    show (∃ out, Deflate.decode z (rawLength ⟨type, count, .deflate, payload⟩) payload = .ok out) ↔ _
    rw [rawLength_eq hlt]
    exact exists_decode_stream_iff

/-- A column that has to be turned around can be decoded afterwards exactly if its payload is
what it has to be in the other order. -/
theorem exists_stores_flip_iff_admits (hz : z.Lossless) (hlt : count < 256 ^ 4) :
    (∃ c, flip z level ⟨type, count, mode, payload⟩ = .ok c
        ∧ ∃ bytes, c.Stores z type count bytes) ↔
      mode.Admits z .big type.size count payload := by
  -- unless it is a stream, the column can be turned around whatever its payload is
  have hinPlace : ∀ {payload' : List UInt8},
      flip z level ⟨type, count, mode, payload⟩ = .ok ⟨type, count, mode, payload'⟩ →
      ((∃ c, flip z level ⟨type, count, mode, payload⟩ = .ok c
        ∧ ∃ bytes, c.Stores z type count bytes) ↔
        ∃ bytes, Stores z type count bytes ⟨type, count, mode, payload'⟩) := by
    intro payload' hflip
    rw [hflip]
    exact ⟨fun ⟨c, hc, h⟩ => by cases hc; exact h, fun h => ⟨_, rfl, h⟩⟩
  cases mode with
  | raw =>
    refine (hinPlace rfl).trans ((exists_stores_iff_admits_little hlt).trans ?_)
    show (reverseChunks type.size payload).length = _ ↔ _
    rw [length_reverseChunks]
    exact Iff.rfl
  | rle =>
    refine (hinPlace rfl).trans ((exists_stores_iff_content (by simp) hlt).trans ?_)
    exact RunLength.exists_decode_flip_iff
  | sigbits =>
    refine (hinPlace rfl).trans ((exists_stores_iff_content (by simp) hlt).trans ?_)
    exact Sigbits.exists_decode_flip_iff (Sigbits.isSupported_size type) type.size_le hlt
  | deflate =>
    refine Iff.trans ?_ exists_decode_stream_iff
    have hlength : rawLength ⟨type, count, .deflate, payload⟩ = count * type.size := rawLength_eq hlt
    rw [← hlength]
    constructor
    · -- a stream is unpacked to be turned around
      rintro ⟨c, hflip, -⟩
      obtain ⟨content, hcontent, -⟩ := (flip_deflate_eq_ok_iff rfl).1 hflip
      exact ⟨content, hcontent⟩
    · -- what has been unpacked is packed again, and is as long as before
      rintro ⟨content, hcontent⟩
      refine ⟨_, (flip_deflate_eq_ok_iff rfl).2 ⟨content, hcontent, rfl⟩, ?_⟩
      refine (exists_stores_iff_content (by simp) hlt).2 ⟨reverseChunks type.size content, ?_⟩
      have hlength := Deflate.length_of_decode hcontent
      show Deflate.decode z (rawLength ⟨type, count, .deflate, payload⟩) _ = _
      rw [← hlength, ← length_reverseChunks type.size content]
      exact deflate_decode_pack hz level _

/-- One byte is the same number in either order. -/
theorem ofBytes_of_length_le {bytes : List UInt8} (h : bytes.length ≤ 1) :
    Word.ofBytes .big bytes = Word.ofLittle bytes := by
  rcases bytes with - | ⟨b, - | ⟨b', bytes⟩⟩
  · rfl
  · rfl
  · simp only [List.length_cons] at h
    omega

/-- For elements of one byte there is no byte order. -/
theorem admits_big_iff {size : Nat} (hsize : size ≤ 1) :
    mode.Admits z .big size count payload ↔ mode.Admits z .little size count payload := by
  cases mode with
  | raw => exact Iff.rfl
  | rle => exact Iff.rfl
  | sigbits =>
    have hword : Word.ofBytes .big (payload.take size) = Word.ofBytes .little (payload.take size) :=
      ofBytes_of_length_le (by rw [List.length_take]; omega)
    rw [Mode.Admits, Mode.Admits, hword]
  | deflate => exact Iff.rfl

/-- A column of a message can be turned around and decoded exactly if its payload is what it has
to be. -/
theorem exists_stores_iff_admits (hz : z.Lossless) (hlt : count < 256 ^ 4) :
    (∃ c, toOrder z level order ⟨type, count, mode, payload⟩ = .ok c
        ∧ ∃ bytes, c.Stores z type count bytes) ↔
      mode.Admits z order type.size count payload := by
  have hstay : (∃ c, (.ok ⟨type, count, mode, payload⟩ : Except Fault Column) = .ok c
        ∧ ∃ bytes, c.Stores z type count bytes) ↔
      mode.Admits z .little type.size count payload := by
    rw [← exists_stores_iff_admits_little hlt]
    exact ⟨fun ⟨c, hc, h⟩ => by cases hc; exact h, fun h => ⟨_, rfl, h⟩⟩
  cases order with
  | little => exact hstay
  | big =>
    rcases Nat.lt_or_ge 1 type.size with hwide | hnarrow
    · rw [toOrder_of_needsFlip (by exact decide_eq_true hwide)]
      exact exists_stores_flip_iff_admits hz hlt
    · rw [toOrder_of_needsFlip_eq_false (by exact decide_eq_false (Nat.not_lt.2 hnarrow)),
        admits_big_iff hnarrow]
      exact hstay

end Column

end PointPatch
