/-
PointPatch/Proofs/Column/Storage.lean

What a column stores.

`c.Stores z type count bytes` says that `c` is a column of `count` elements of
a type, in whatever mode, and decodes to the raw bytes of these elements.
Storing a raw column in any mode gives such a column
(`exists_encode_stores`); how it is stored does not show in what it decodes
to.

Nothing is asked of the elements: there may be none, they may all be the same
or share no bit, and a number is no more than its bytes (`encode_lossless`).
What is stored never decodes to anything else than was stored; that it decodes
is bounded by memory alone, and only in modes whose payload may be much
shorter than the elements (`Mode.CanHold`).
-/
import PointPatch.Column.Basic
import PointPatch.Proofs.Column.RunLength
import PointPatch.Proofs.Column.Sigbits
import PointPatch.Proofs.Outcome
import PointPatch.Proofs.Stream.Stored

namespace PointPatch

/-- How many raw bytes a mode can give back: memory has to hold the elements before their shared
bits are put in, and a machine word the length of what is unpacked from a stream. -/
def Mode.CanHold (memory : Memory) : Mode → Nat → Prop
  | .raw, _ => True
  | .rle, _ => True
  | .sigbits, length => memory.grants length = true
  | .deflate, length => length < 2 ^ 64

/-- What memory holds comes back out of every mode. -/
theorem Mode.canHold_of_grants {memory : Memory} {length : Nat}
    (h : memory.grants length = true) (mode : Mode) : mode.CanHold memory length := by
  cases mode with
  | raw => exact trivial
  | rle => exact trivial
  | sigbits => exact h
  | deflate => exact Nat.lt_trans (memory.lt_of_grants h) (by decide)

namespace Column

variable {z : ColumnCodec} {type : Interpretation} {count : Nat} {bytes : List UInt8} {c : Column}

/-! ### Decoding -/

/-- The raw elements that a column decodes to. -/
def content (z : ColumnCodec) (c : Column) : Except Fault (List UInt8) :=
  match c.mode with
  | .raw => .ok c.payload
  | .rle => RunLength.decode c.type.size c.count c.payload
  | .sigbits => Sigbits.decode c.type.size c.count c.payload z.memory
  | .deflate => Deflate.decode z c.rawLength c.payload

theorem decode_eq (z : ColumnCodec) (c : Column) :
    c.decode z = (c.content z).map fun payload => ⟨c.type, c.count, .raw, payload⟩ := by
  obtain ⟨type, count, mode, payload⟩ := c
  cases mode <;> rfl

theorem decode_eq_ok_iff {raw : Column} :
    c.decode z = .ok raw ↔
      ∃ bytes, c.content z = .ok bytes ∧ raw = ⟨c.type, c.count, .raw, bytes⟩ := by
  rw [decode_eq]
  cases c.content z with
  | error fault => simp [Except.map]
  | ok bytes => simp [Except.map, eq_comm]

theorem decode_raw (type : Interpretation) (count : Nat) (payload : List UInt8) :
    decode z ⟨type, count, .raw, payload⟩ = .ok ⟨type, count, .raw, payload⟩ := rfl

/-- Unless it is raw, a column that can be decoded decodes to as many elements as it counts. -/
theorem length_of_content (hmode : c.mode ≠ .raw) (h : c.content z = .ok bytes)
    (hcount : c.count * c.type.size < 2 ^ 64) : bytes.length = c.count * c.type.size := by
  rw [content] at h
  split at h
  · rename_i hraw
    exact absurd hraw hmode
  · exact RunLength.length_of_decode h
  · exact Sigbits.length_of_decode h
  · rw [Deflate.length_of_decode h, rawLength, Nat.pow_eq, Nat.min_eq_left (by omega)]

/-! ### Columns as stores -/

/-- A column, in any mode, of `count` elements of a type with the given raw bytes. -/
structure Stores (z : ColumnCodec) (type : Interpretation) (count : Nat) (bytes : List UInt8)
    (c : Column) : Prop where
  type_eq : c.type = type
  count_eq : c.count = count
  content_eq : c.content z = .ok bytes
  length_bytes : bytes.length = count * type.size

theorem Stores.decode (h : c.Stores z type count bytes) :
    c.decode z = .ok ⟨type, count, .raw, bytes⟩ :=
  decode_eq_ok_iff.2 ⟨bytes, h.content_eq, by rw [h.type_eq, h.count_eq]⟩

theorem stores_raw (h : bytes.length = count * type.size) :
    Stores z type count bytes ⟨type, count, .raw, bytes⟩ := ⟨rfl, rfl, rfl, h⟩

/-- What a column stores as a stream is as long as it asks for. -/
theorem Stores.rawLength (h : c.Stores z type count bytes) (hmode : c.mode = .deflate) :
    c.rawLength = bytes.length := by
  have hcontent := h.content_eq
  rw [content, hmode] at hcontent
  exact (Deflate.length_of_decode hcontent).symm

/-! ### Streams -/

/-- A stream holds what was packed into it, and nothing of another length. -/
theorem deflate_decode_pack_eq_ok_iff (hz : z.Lossless) {level : Int} {expected : Nat}
    {out : List UInt8} :
    Deflate.decode z expected (z.pack level bytes) = .ok out
      ↔ bytes.length = expected ∧ out = bytes := by
  rw [Deflate.decode, hz]
  show (if (bytes.take (expected + 1)).length = expected then _ else _) = _ ↔ _
  rw [List.length_take]
  constructor
  · intro h
    split at h
    · rename_i hlength
      cases h
      have hbytes : bytes.length = expected := by omega
      exact ⟨hbytes, List.take_of_length_le (by omega)⟩
    · cases h
  · rintro ⟨rfl, rfl⟩
    rw [if_pos (Nat.min_eq_right (Nat.le_succ _)), List.take_of_length_le (Nat.le_succ _)]

/-- The content of a stream is what was packed into it. -/
theorem deflate_decode_pack (hz : z.Lossless) (level : Int) (bytes : List UInt8) :
    Deflate.decode z bytes.length (z.pack level bytes) = .ok bytes :=
  (deflate_decode_pack_eq_ok_iff hz).2 ⟨rfl, rfl⟩

/-! ### Encoding -/

/-- A raw column can be stored in every mode. -/
theorem exists_encode (z : ColumnCodec) (type : Interpretation) (count : Nat) (bytes : List UInt8)
    (level : Nat) (mode : Mode) :
    ∃ payload,
      encode z level mode ⟨type, count, .raw, bytes⟩ = .ok ⟨type, count, mode, payload⟩ := by
  cases mode with
  | raw => exact ⟨_, rfl⟩
  | rle => exact ⟨_, rfl⟩
  | sigbits =>
    have hencode : Sigbits.encode type.size bytes
        = .ok (Sigbits.encodeWords type.size (Sigbits.words type.size bytes)) :=
      if_pos (Sigbits.isSupported_size type)
    refine ⟨Sigbits.encodeWords type.size (Sigbits.words type.size bytes), ?_⟩
    show (Sigbits.encode type.size bytes >>= fun payload => _) = _
    rw [hencode]
    rfl
  | deflate => exact ⟨_, rfl⟩

/-- The payload that a raw column is stored with decodes to the raw bytes, if the mode can hold as
many; it decodes to nothing else in any case. -/
theorem content_of_encode (hz : z.Lossless) (h : bytes.length = count * type.size) {level : Nat}
    {mode : Mode} {payload : List UInt8}
    (hc : encode z level mode ⟨type, count, .raw, bytes⟩ = .ok ⟨type, count, mode, payload⟩) :
    (mode.CanHold z.memory bytes.length → content z ⟨type, count, mode, payload⟩ = .ok bytes)
      ∧ ∀ out, content z ⟨type, count, mode, payload⟩ = .ok out → out = bytes := by
  cases mode with
  | raw =>
    cases hc
    exact ⟨fun _ => rfl, fun out hout => (Except.ok.inj hout).symm⟩
  | rle =>
    cases hc
    have hdecode := RunLength.decode_encode type.size_pos h
    exact ⟨fun _ => hdecode, fun out hout => Except.ok.inj (hout.symm.trans hdecode)⟩
  | sigbits =>
    change (Sigbits.encode type.size bytes >>= fun payload =>
      Except.ok (⟨type, count, .sigbits, payload⟩ : Column)) = _ at hc
    obtain ⟨payload', hencode, hc⟩ := bind_eq_ok_iff.1 hc
    cases hc
    refine ⟨fun hhold => Sigbits.decode_encode h (h ▸ hhold) hencode, fun out hout => ?_⟩
    -- what can be decoded has been found to fit into memory
    have hreadable := (Sigbits.exists_decode_iff (Sigbits.isSupported_size type)).1 ⟨out, hout⟩
    exact Except.ok.inj (hout.symm.trans (Sigbits.decode_encode h hreadable.granted hencode))
  | deflate =>
    cases hc
    refine ⟨fun hhold => (deflate_decode_pack_eq_ok_iff hz).2 ⟨?_, rfl⟩,
      fun out hout => ((deflate_decode_pack_eq_ok_iff hz).1 hout).2⟩
    have hword : bytes.length < 2 ^ 64 := hhold
    rw [rawLength, ← h, Nat.pow_eq, Nat.min_eq_left (by omega)]

/-- A raw column that memory holds can be stored in every mode. -/
theorem exists_encode_stores (hz : z.Lossless) (h : bytes.length = count * type.size)
    (hmem : z.memory.grants (count * type.size) = true) (level : Nat) (mode : Mode) :
    ∃ c : Column, encode z level mode ⟨type, count, .raw, bytes⟩ = .ok c ∧ c.mode = mode
      ∧ c.Stores z type count bytes := by
  obtain ⟨payload, hc⟩ := exists_encode z type count bytes level mode
  have hhold := Mode.canHold_of_grants hmem mode
  rw [← h] at hhold
  exact ⟨_, hc, rfl, rfl, rfl, (content_of_encode hz h hc).1 hhold, h⟩

/-- Every raw column can be stored in every mode, at every level, with its type and its number of
elements. Decoding gives the raw column back, as far as the mode can hold it, and never another
one. -/
theorem encode_lossless (hz : z.Lossless) {raw : Column} (hraw : raw.mode = .raw)
    (hlength : raw.payload.length = raw.count * raw.type.size) (level : Nat) (mode : Mode) :
    ∃ c, raw.encode z level mode = .ok c ∧ c.mode = mode ∧ c.type = raw.type
      ∧ c.count = raw.count ∧ (mode.CanHold z.memory raw.payload.length → c.decode z = .ok raw)
      ∧ ∀ out, c.decode z = .ok out → out = raw := by
  obtain ⟨type, count, mode', bytes⟩ := raw
  obtain rfl : mode' = .raw := hraw
  obtain ⟨payload, hc⟩ := exists_encode z type count bytes level mode
  obtain ⟨hback, honly⟩ := content_of_encode hz hlength hc
  refine ⟨_, hc, rfl, rfl, rfl, fun hhold => ?_, fun out hout => ?_⟩
  · exact decode_eq_ok_iff.2 ⟨bytes, hback hhold, rfl⟩
  · obtain ⟨bytes', hbytes', rfl⟩ := decode_eq_ok_iff.1 hout
    rw [honly bytes' hbytes']

/-- Two numbers that are none, with different bytes, and the two zeros, in place of which no other
bytes come back. -/
theorem encode_lossless_specimen :
    let raw : Column := ⟨.float32, 4, .raw,
      [0, 0, 0xc0, 0x7f, 1, 0, 0xc0, 0xff, 0, 0, 0, 0x80, 0, 0, 0, 0]⟩
    ∃ c, raw.encode Deflate.codec 6 .sigbits = .ok c ∧ c.decode Deflate.codec = .ok raw := by
  intro raw
  obtain ⟨c, hc, -, -, -, hdecode, -⟩ :=
    encode_lossless (z := Deflate.codec) Deflate.codec_lossless (rfl : raw.mode = .raw) rfl 6
      .sigbits
  exact ⟨c, hc, hdecode (by unfold Mode.CanHold; decide)⟩

/-! ### Counts -/

theorem exists_runCount (type : Interpretation) (count : Nat) (bytes : List UInt8) :
    ∃ n, runCount ⟨type, count, .raw, bytes⟩ = .ok n := ⟨_, rfl⟩

theorem exists_sharedBitCount (type : Interpretation) (count : Nat) (bytes : List UInt8) :
    ∃ n, sharedBitCount ⟨type, count, .raw, bytes⟩ = .ok n := by
  show ∃ n, Sigbits.commonBitCount type.size bytes = .ok n
  rw [Sigbits.commonBitCount, if_pos (Sigbits.isSupported_size type)]
  exact ⟨_, rfl⟩

end Column

end PointPatch
