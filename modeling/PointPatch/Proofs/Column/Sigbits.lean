/-
PointPatch/Proofs/Column/Sigbits.lean

Payloads without the shared leading bits.

A payload can be decoded if it has its two opening words, the first of which
counts no more bits than a word has, and enough bytes of the stream after them,
and if memory holds the elements (`exists_decode_iff`); how the bits are padded,
and what follows the stream, makes no difference.  Decoding gives back what was
encoded (`decode_encode`).

Turning a payload around turns around its two opening words, and doing so
twice changes nothing (`flip_flip`).
-/
import PointPatch.Bytes.Word
import PointPatch.Column.Sigbits
import PointPatch.Proofs.Bytes.Bits
import PointPatch.Proofs.Bytes.Word
import PointPatch.Proofs.Outcome

namespace PointPatch

theorem two_pow_eight_mul (size : Nat) : 2 ^ (8 * size) = 256 ^ size := by
  rw [Nat.pow_mul]

namespace Sigbits

theorem isSupported_size (t : Interpretation) : isSupported t.size = true := by
  cases t <;> rfl

theorem size_pos_of_isSupported {size : Nat} (h : isSupported size = true) : 0 < size := by
  simp only [isSupported, Bool.or_eq_true, beq_iff_eq] at h
  omega

/-! ### Words of a buffer -/

theorem words_lt {size : Nat} {bytes : List UInt8} {w : Nat} (hw : w ∈ words size bytes) :
    w < 2 ^ (8 * size) := by
  obtain ⟨piece, hpiece, rfl⟩ := List.mem_map.1 hw
  have hlt := Word.ofLittle_lt piece
  rwa [length_of_mem_chunks hpiece, ← two_pow_eight_mul] at hlt

theorem flatMap_toLittle_words {size : Nat} {bytes : List UInt8} (h : bytes.length % size = 0) :
    (words size bytes).flatMap (Word.toLittle size) = bytes := by
  have hid : (chunks size bytes).map (Word.toLittle size ∘ Word.ofLittle)
      = (chunks size bytes).map id := by
    refine List.map_congr_left ?_
    intro piece hpiece
    have hback := Word.toLittle_ofLittle piece
    rwa [length_of_mem_chunks hpiece] at hback
  rw [words, List.flatMap_def, List.map_map, hid, List.map_id, flatten_chunks h]

/-! ### Decoding -/

/-- What has to be there: of a payload of shared bits, and of memory. -/
structure IsReadable (memory : Memory) (size count : Nat) (payload : List UInt8) : Prop where
  header : 2 * size ≤ payload.length
  shared_le : Word.ofLittle (payload.take size) ≤ 8 * size
  stream : 2 * size + streamBytes count (8 * size - Word.ofLittle (payload.take size))
    ≤ payload.length
  granted : memory.grants (count * size) = true

section

variable {memory : Memory} {size count : Nat} {payload : List UInt8}

/-- The fields of a stream are not too large for the words. -/
theorem ofBits_lt_of_mem_chunksOf {width shared : Nat} {bits : List Bool} {low : Nat}
    (hlow : low ∈ (chunksOf (width - shared) count bits).map ofBits) : low < 2 ^ width := by
  obtain ⟨piece, hpiece, rfl⟩ := List.mem_map.1 hlow
  have hlength : piece.length ≤ width :=
    (length_le_of_mem_chunksOf hpiece).trans (Nat.sub_le width shared)
  exact (ofBits_lt piece).trans_le (Nat.pow_le_pow_right (by decide) hlength)

/-- No more bytes of the stream are asked for than the fields take. -/
theorem streamBytes_le (count width : Nat) : streamBytes count width ≤ (count * width + 7) / 8 :=
  Nat.div_le_div_right (Nat.add_le_add_right (Nat.min_le_left _ _) 7)

/-- The number of stream bytes, where the bits of all fields can be counted in a machine word. -/
theorem streamBytes_of_lt {width : Nat} (h : count * width < 2 ^ 64) :
    streamBytes count width = (count * width + 7) / 8 := by
  rw [streamBytes, Nat.pow_eq, Nat.min_eq_left (by omega)]

theorem decodeWords_eq_ok_of_isReadable (h : IsReadable memory size count payload) :
    decodeWords size count payload memory = .ok
      (((chunksOf (8 * size - Word.ofLittle (payload.take size)) count
        (unpackBits (payload.drop (2 * size)))).map ofBits).map
        fun low => Word.ofLittle (slice size size payload) ||| low) := by
  have hstream := h.stream
  have hbody : streamBytes count (8 * size - Word.ofLittle (payload.take size))
      ≤ (payload.drop (2 * size)).length := by
    rw [List.length_drop]
    omega
  have hall : (((chunksOf (8 * size - Word.ofLittle (payload.take size)) count
      (unpackBits (payload.drop (2 * size)))).map ofBits).all
      fun low => low < Nat.pow 2 (8 * size)) = true := by
    rw [List.all_eq_true]
    exact fun low hlow => decide_eq_true (ofBits_lt_of_mem_chunksOf hlow)
  rw [decodeWords, if_neg (Nat.not_lt.2 h.header)]
  simp only
  rw [if_neg (Nat.not_lt.2 h.shared_le), if_neg (Nat.not_lt.2 hbody), if_pos h.granted,
    if_pos hall]

theorem isReadable_of_decodeWords {ws : List Nat}
    (h : decodeWords size count payload memory = .ok ws) :
    IsReadable memory size count payload := by
  rw [decodeWords] at h
  split at h
  · cases h
  · rename_i hheader
    simp only at h
    split at h
    · cases h
    · rename_i hshared
      split at h
      · cases h
      · rename_i hbody
        split at h
        · rename_i hgranted
          rw [List.length_drop] at hbody
          exact ⟨by omega, by omega, by omega, hgranted⟩
        · cases h

/-- The payloads that can be decoded are those that have everything that is read. -/
theorem exists_decode_iff (hsize : isSupported size = true) :
    (∃ out, decode size count payload memory = .ok out) ↔
      IsReadable memory size count payload := by
  rw [decode, if_pos hsize, exists_map_eq_ok_iff]
  exact ⟨fun ⟨_, hws⟩ => isReadable_of_decodeWords hws,
    fun h => ⟨_, decodeWords_eq_ok_of_isReadable h⟩⟩

theorem length_of_decode {out : List UInt8} (h : decode size count payload memory = .ok out) :
    out.length = count * size := by
  rw [decode] at h
  split at h
  · obtain ⟨ws, hws, rfl⟩ := map_eq_ok_iff.1 h
    rw [decodeWords_eq_ok_of_isReadable (isReadable_of_decodeWords hws)] at hws
    cases hws
    rw [length_flatMap_of_forall fun w _ => Word.length_toLittle size w]
    simp only [List.length_map, length_chunksOf]
  · cases h

end

/-! ### Encoding -/

/-- The fields that a stream of low bits is cut into are these low bits. -/
theorem fields_packBits {own count : Nat} {ws : List Nat} (hcount : ws.length = count)
    (rest : List Bool) :
    (chunksOf own count (ws.flatMap (lowBits own) ++ rest)).map ofBits
      = ws.map fun w => w % 2 ^ own := by
  have hpieces : ∀ p ∈ ws.map (lowBits own), p.length = own :=
    List.forall_mem_map.2 fun w _ => length_lowBits own w
  have hchunks := chunksOf_flatten_append hpieces rest
  rw [List.length_map, hcount] at hchunks
  rw [List.flatMap_def, hchunks, List.map_map]
  exact List.map_congr_left fun w _ => ofBits_lowBits own w

theorem length_flatMap_lowBits (own : Nat) (ws : List Nat) :
    (ws.flatMap (lowBits own)).length = ws.length * own :=
  length_flatMap_of_forall fun w _ => length_lowBits own w

section

variable {size : Nat} {ws : List Nat}

/-- The three parts of a payload: the number of shared bits, these bits, and the stream. -/
theorem encodeWords_eq (size : Nat) (ws : List Nat) :
    encodeWords size ws = Word.toLittle size (commonBits (8 * size) ws).1
      ++ Word.toLittle size (commonBits (8 * size) ws).2
      ++ packBits (ws.flatMap (lowBits (8 * size - (commonBits (8 * size) ws).1))) := rfl

theorem take_encodeWords (size : Nat) (ws : List Nat) :
    Word.ofLittle ((encodeWords size ws).take size) = (commonBits (8 * size) ws).1 := by
  have hlt : (commonBits (8 * size) ws).1 < 256 ^ size := by
    rw [← two_pow_eight_mul]
    exact Nat.lt_of_le_of_lt (commonBits_fst_le _ ws) Nat.lt_two_pow_self
  rw [encodeWords_eq, List.append_assoc, List.take_left' (Word.length_toLittle size _),
    Word.ofLittle_toLittle hlt]

theorem slice_encodeWords (size : Nat) (ws : List Nat) :
    Word.ofLittle (slice size size (encodeWords size ws)) = (commonBits (8 * size) ws).2 := by
  have hlt : (commonBits (8 * size) ws).2 < 256 ^ size := by
    rw [← two_pow_eight_mul]
    exact commonBits_snd_lt _ ws
  rw [encodeWords_eq, slice_append_append (Word.length_toLittle size _)
    (Word.length_toLittle size _), Word.ofLittle_toLittle hlt]

theorem drop_encodeWords (size : Nat) (ws : List Nat) :
    (encodeWords size ws).drop (2 * size)
      = packBits (ws.flatMap (lowBits (8 * size - (commonBits (8 * size) ws).1))) := by
  rw [encodeWords_eq, List.drop_left']
  rw [List.length_append, Word.length_toLittle, Word.length_toLittle, Nat.two_mul]

/-- The length of what is written for some words. -/
theorem length_encodeWords (size : Nat) (ws : List Nat) :
    (encodeWords size ws).length
      = 2 * size + (ws.length * (8 * size - (commonBits (8 * size) ws).1) + 7) / 8 := by
  rw [encodeWords_eq, List.length_append, List.length_append, Word.length_toLittle,
    Word.length_toLittle, length_packBits, length_flatMap_lowBits, Nat.two_mul]

variable {memory : Memory}

theorem isReadable_encodeWords (hgranted : memory.grants (ws.length * size) = true) :
    IsReadable memory size ws.length (encodeWords size ws) where
  header := by
    rw [length_encodeWords]
    exact Nat.le_add_right _ _
  shared_le := by
    rw [take_encodeWords]
    exact commonBits_fst_le _ ws
  stream := by
    rw [take_encodeWords, length_encodeWords]
    exact Nat.add_le_add_left (streamBytes_le _ _) _
  granted := hgranted

theorem decodeWords_encodeWords (hws : ∀ w ∈ ws, w < 2 ^ (8 * size))
    (hgranted : memory.grants (ws.length * size) = true) :
    decodeWords size ws.length (encodeWords size ws) memory = .ok ws := by
  rw [decodeWords_eq_ok_of_isReadable (isReadable_encodeWords hgranted), take_encodeWords,
    slice_encodeWords, drop_encodeWords, unpackBits_packBits, fields_packBits rfl, List.map_map]
  -- shared bits and own bits make the word again
  have hid : ws.map ((fun low => (commonBits (8 * size) ws).2 ||| low) ∘
      fun w => w % 2 ^ (8 * size - (commonBits (8 * size) ws).1)) = ws.map id :=
    List.map_congr_left fun w hw => commonBits_or_mod hws hw
  rw [hid, List.map_id]

/-- Decoding gives back what was encoded, if memory holds it. -/
theorem decode_encode {count : Nat} {bytes payload : List UInt8}
    (hbytes : bytes.length = count * size) (hgranted : memory.grants (count * size) = true)
    (h : encode size bytes = .ok payload) : decode size count payload memory = .ok bytes := by
  rw [encode] at h
  split at h
  · rename_i hsize
    cases h
    have hpos := size_pos_of_isSupported hsize
    have hcount : (words size bytes).length = count := by
      rw [words, List.length_map, length_chunks, hbytes, Nat.mul_div_cancel _ hpos]
    have hmod : bytes.length % size = 0 := by
      rw [hbytes, Nat.mul_mod_left]
    have hwords : ∀ w ∈ words size bytes, w < 2 ^ (8 * size) := fun w hw => words_lt hw
    rw [← hcount] at hgranted
    have hdecode := decodeWords_encodeWords hwords hgranted
    rw [hcount] at hdecode
    rw [decode, if_pos hsize, hdecode]
    exact congrArg Except.ok (flatMap_toLittle_words hmod)
  · cases h

end

/-! ### Byte order -/

@[simp] theorem length_flip (size : Nat) (payload : List UInt8) :
    (flip size payload).length = payload.length := by
  rw [flip]
  split
  · rfl
  · simp only [List.length_append, List.length_reverse, List.length_take, List.length_drop, slice]
    omega

/-- A payload with both opening words, in its three parts. -/
theorem flip_append_append {size : Nat} {a b : List UInt8} (ha : a.length = size)
    (hb : b.length = size) (rest : List UInt8) :
    flip size (a ++ b ++ rest) = a.reverse ++ b.reverse ++ rest := by
  have hab : (a ++ b).length = 2 * size := by
    rw [List.length_append, ha, hb]
    omega
  have hlen : ¬ (a ++ b ++ rest).length < 2 * size := by
    rw [List.length_append, hab]
    omega
  rw [flip, if_neg hlen, slice_append_append ha hb, List.drop_left' hab, List.append_assoc a,
    List.take_left' ha]

/-- The three parts of a payload that has both opening words. -/
theorem exists_parts {size : Nat} {payload : List UInt8} (h : 2 * size ≤ payload.length) :
    ∃ a b rest, a.length = size ∧ b.length = size ∧ payload = a ++ b ++ rest := by
  refine ⟨payload.take size, (payload.drop size).take size, payload.drop (2 * size), ?_, ?_, ?_⟩
  · rw [List.length_take]
    omega
  · rw [List.length_take, List.length_drop]
    omega
  · rw [Nat.two_mul, ← List.drop_drop, List.append_assoc, List.take_append_drop,
      List.take_append_drop]

@[simp] theorem flip_flip (size : Nat) (payload : List UInt8) :
    flip size (flip size payload) = payload := by
  rcases Nat.lt_or_ge payload.length (2 * size) with hlt | hge
  · rw [flip, length_flip, if_pos hlt, flip, if_pos hlt]
  · obtain ⟨a, b, rest, ha, hb, rfl⟩ := exists_parts hge
    rw [flip_append_append ha hb, flip_append_append (List.length_reverse.trans ha)
      (List.length_reverse.trans hb), List.reverse_reverse, List.reverse_reverse]

/-- The first opening word of a payload that has been turned around. -/
theorem take_flip {size : Nat} {payload : List UInt8} (h : 2 * size ≤ payload.length) :
    (flip size payload).take size = (payload.take size).reverse := by
  obtain ⟨a, b, rest, ha, hb, rfl⟩ := exists_parts h
  rw [flip_append_append ha hb, List.append_assoc, List.append_assoc, List.take_left' ha,
    List.take_left' (List.length_reverse.trans ha)]

end Sigbits

end PointPatch
