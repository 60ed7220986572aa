/-
PointPatch/Proofs/Column/Layout.lean

What a message says of the words of a column.

`Layout order size words mode payload` says how the words of a column are laid
out in a payload of the given byte order: raw values as words one after
another, runs as a count byte and a word each, shared bits as two words and a
stream of bits.  It names no step by which a payload comes about, and leaves
no choice (`Layout.unique`).

A column is encoded in machine order, and its finished payload is patched in
place on its way into a foreign message.  Each of the two steps is followed
through the layouts: encoding leads to the machine order layout of the words
(`layout_of_encode`), and turning around leads from there to the foreign one
(`layout_of_flip`).  So a message in either order says what a machine of that
order would have written at once (`write_encode`).
-/
import PointPatch.Proofs.Bytes.SharedPrefix
import PointPatch.Proofs.Column.MaximalRuns
import PointPatch.Proofs.Column.Message

namespace PointPatch

/-- How words of `size` bytes are laid out in a message of the given byte order. Compressed
streams are left out; how they look is the affair of the codec. -/
inductive Layout (order : ByteOrder) (size : Nat) (words : List Nat) : Mode → List UInt8 → Prop
  /-- The words, one after another. -/
  | raw : Layout order size words .raw (words.flatMap (Word.toBytes order size))
  /-- A count byte and a word for each run; runs are as long as a count byte allows. -/
  | rle {runs : List (Run Nat)} (hruns : MaximalRuns RunLength.longestRun words runs) :
    Layout order size words .rle
      (runs.flatMap fun r => UInt8.ofNat r.count :: Word.toBytes order size r.value)
  /-- The number of shared bits and these bits as words, then the other bits of each word, most
  significant first, in a stream that has no byte order. -/
  | sigbits {count common : Nat} {stream : List UInt8}
      (hshared : IsSharedPrefix (8 * size) words count common)
      (hstream : IsPacked (words.flatMap (lowBits (8 * size - count))) stream) :
    Layout order size words .sigbits
      (Word.toBytes order size count ++ Word.toBytes order size common ++ stream)

/-- Words have one layout in each mode and byte order. -/
theorem Layout.unique {order : ByteOrder} {size : Nat} {words : List Nat} {mode : Mode}
    {payload payload' : List UInt8} (h : Layout order size words mode payload)
    (h' : Layout order size words mode payload') : payload = payload' := by
  cases h with
  | raw => cases h' with | raw => rfl
  | rle hruns =>
    cases h' with
    | rle hruns' => rw [hruns.unique hruns']
  | sigbits hshared hstream =>
    cases h' with
    | sigbits hshared' hstream' =>
      obtain ⟨rfl, rfl⟩ := hshared.unique hshared'
      rw [hstream.unique hstream']

/-! ### Words turned around -/

/-- A word of one byte has no byte order. -/
theorem Word.toBytes_one (order : ByteOrder) (n : Nat) :
    Word.toBytes order 1 n = Word.toLittle 1 n := by
  cases order <;> rfl

theorem reverseChunks_flatMap_toLittle {size : Nat} (hsize : 0 < size) (words : List Nat) :
    reverseChunks size (words.flatMap (Word.toLittle size))
      = words.flatMap (Word.toBytes .big size) := by
  have hlength : ∀ w ∈ words, (Word.toLittle size w).length = size :=
    fun w _ => Word.length_toLittle size w
  have hwhole : (words.flatMap (Word.toLittle size)).length / size * size
      = (words.flatMap (Word.toLittle size)).length := by
    rw [length_flatMap_of_forall hlength, Nat.mul_div_cancel _ hsize]
  rw [reverseChunks_eq_mapPieces, mapPieces, hwhole, List.drop_length, List.append_nil,
    chunks_flatMap hsize hlength, List.flatMap_map]
  rfl

namespace RunLength

theorem flatMap_pairBytes_map_toLittle (size : Nat) (runs : List (Run Nat)) :
    (runs.map (Run.map (Word.toLittle size))).flatMap pairBytes
      = runs.flatMap fun r => UInt8.ofNat r.count :: Word.toLittle size r.value := by
  rw [List.flatMap_map]
  rfl

theorem flip_flatMap_toLittle (size : Nat) (runs : List (Run Nat)) :
    flip size (runs.flatMap fun r => UInt8.ofNat r.count :: Word.toLittle size r.value)
      = runs.flatMap fun r => UInt8.ofNat r.count :: Word.toBytes .big size r.value := by
  have hvalue : ∀ r ∈ runs.map (Run.map (Word.toLittle size)), r.value.length = size :=
    List.forall_mem_map.2 fun r _ => Word.length_toLittle size r.value
  rw [← flatMap_pairBytes_map_toLittle, flip_flatMap_pairBytes hvalue, List.map_map,
    List.flatMap_map]
  rfl

/-- The runs of a buffer are those of the words in it. -/
theorem encode_eq_flatMap_runsOf {size : Nat} (bytes : List UInt8) :
    encode size bytes = (runsOf longestRun (Sigbits.words size bytes)).flatMap
      fun r => UInt8.ofNat r.count :: Word.toLittle size r.value := by
  have hback : ∀ piece ∈ chunks size bytes, Word.toLittle size (Word.ofLittle piece) = piece := by
    intro piece hpiece
    have h := Word.toLittle_ofLittle piece
    rwa [length_of_mem_chunks hpiece] at h
  have hchunks : chunks size bytes = (Sigbits.words size bytes).map (Word.toLittle size) := by
    rw [Sigbits.words, List.map_map]
    exact (List.map_id _).symm.trans (List.map_congr_left fun p hp => (hback p hp).symm)
  -- different words have different bytes
  have hinj : Set.InjOn (Word.toLittle size) {w | w ∈ Sigbits.words size bytes} := by
    intro v hv w hw h
    have hv := Sigbits.words_lt hv
    have hw := Sigbits.words_lt hw
    rw [two_pow_eight_mul] at hv hw
    rw [← Word.ofLittle_toLittle hv, h, Word.ofLittle_toLittle hw]
  rw [encode, hchunks, runsOf_map (by decide) hinj, flatMap_pairBytes_map_toLittle]

end RunLength

namespace Sigbits

theorem flip_toLittle_append (size a b : Nat) (stream : List UInt8) :
    flip size (Word.toLittle size a ++ Word.toLittle size b ++ stream)
      = Word.toBytes .big size a ++ Word.toBytes .big size b ++ stream :=
  flip_append_append (Word.length_toLittle size a) (Word.length_toLittle size b) stream

end Sigbits

/-! ### Columns -/

namespace Column

variable {z : ColumnCodec} {level : Nat} {order : ByteOrder} {mode : Mode} {c raw : Column}
variable {words : List Nat}

/-- Encoding lays the words of a raw column out in machine order. -/
theorem layout_of_encode (hraw : raw.mode = .raw)
    (hlength : raw.payload.length = raw.count * raw.type.size) (hmode : mode ≠ .deflate)
    (h : raw.encode z level mode = .ok c) :
    Layout .machine raw.type.size (Sigbits.words raw.type.size raw.payload) mode c.payload := by
  obtain ⟨type, count, mode', bytes⟩ := raw
  obtain rfl : mode' = .raw := hraw
  have hwhole : bytes.length % type.size = 0 := by
    have hlen : bytes.length = count * type.size := hlength
    rw [hlen, Nat.mul_mod_left]
  show Layout .machine type.size (Sigbits.words type.size bytes) mode c.payload
  cases mode with
  | raw =>
    cases h
    have hlayout : Layout .machine type.size (Sigbits.words type.size bytes) .raw
        ((Sigbits.words type.size bytes).flatMap (Word.toLittle type.size)) := .raw
    rwa [Sigbits.flatMap_toLittle_words hwhole] at hlayout
  | rle =>
    cases h
    show Layout _ _ _ _ (RunLength.encode type.size bytes)
    rw [RunLength.encode_eq_flatMap_runsOf]
    exact .rle (maximalRuns_runsOf (by decide) _)
  | sigbits =>
    have hpayload : c.payload
        = Sigbits.encodeWords type.size (Sigbits.words type.size bytes) := by
      have hencode : Sigbits.encode type.size bytes
          = .ok (Sigbits.encodeWords type.size (Sigbits.words type.size bytes)) :=
        if_pos (Sigbits.isSupported_size type)
      change (Sigbits.encode type.size bytes >>= fun payload =>
        Except.ok (⟨type, count, .sigbits, payload⟩ : Column)) = .ok c at h
      rw [hencode] at h
      cases h
      rfl
    rw [hpayload, Sigbits.encodeWords_eq]
    exact .sigbits (isSharedPrefix_commonBits fun w hw => Sigbits.words_lt hw)
      (isPacked_packBits _)
  | deflate => exact absurd rfl hmode

/-- Patching a finished payload hits the words in it and nothing else. -/
theorem layout_of_flip {c' : Column} (hlayout : Layout .machine c.type.size words c.mode c.payload)
    (h : c.flip z level = .ok c') : Layout .big c.type.size words c.mode c'.payload := by
  obtain ⟨type, count, mode, payload⟩ := c
  have hlayout : Layout .machine type.size words mode payload := hlayout
  have hsize := Sigbits.size_pos_of_isSupported (Sigbits.isSupported_size type)
  show Layout .big type.size words mode c'.payload
  cases hlayout with
  | raw =>
    cases h
    show Layout _ _ _ _ (reverseChunks type.size (words.flatMap (Word.toLittle type.size)))
    rw [reverseChunks_flatMap_toLittle hsize]
    exact .raw
  | @rle runs hruns =>
    cases h
    show Layout _ _ _ _ (RunLength.flip type.size
      (runs.flatMap fun r => UInt8.ofNat r.count :: Word.toLittle type.size r.value))
    rw [RunLength.flip_flatMap_toLittle]
    exact .rle hruns
  | @sigbits count common stream hshared hstream =>
    cases h
    show Layout _ _ _ _ (Sigbits.flip type.size
      (Word.toLittle type.size count ++ Word.toLittle type.size common ++ stream))
    rw [Sigbits.flip_toLittle_append]
    exact .sigbits hshared hstream

end Column

/-- Words of one byte are laid out alike in both orders. -/
theorem Layout.of_size_one {order order' : ByteOrder} {words : List Nat} {mode : Mode}
    {payload : List UInt8} (h : Layout order 1 words mode payload) :
    Layout order' 1 words mode payload := by
  have hsame : Word.toBytes order 1 = Word.toBytes order' 1 := by
    funext n
    rw [Word.toBytes_one, Word.toBytes_one]
  cases h with
  | raw =>
    rw [hsame]
    exact .raw
  | rle hruns =>
    rw [hsame]
    exact .rle hruns
  | sigbits hshared hstream =>
    rw [hsame]
    exact .sigbits hshared hstream

namespace Column

variable {z : ColumnCodec} {level : Nat} {order : ByteOrder} {mode : Mode} {c raw : Column}
variable {words : List Nat}

/-- On its way into a message, a payload gets the layout of the byte order of the message. -/
theorem exists_toOrder_layout (hmode : c.mode ≠ .deflate)
    (hlayout : Layout .machine c.type.size words c.mode c.payload) :
    ∃ c', c.toOrder z level order = .ok c' ∧ c'.mode = c.mode
      ∧ Layout order c.type.size words c.mode c'.payload := by
  rcases hflip : c.needsFlip order with - | -
  · refine ⟨c, toOrder_of_needsFlip_eq_false hflip, rfl, ?_⟩
    -- nothing to turn around: either the order is that of the machine, or words have one byte
    rcases Bool.and_eq_false_iff.1 hflip with horder | hsize
    · obtain rfl : order = .machine := by
        cases order with
        | big => cases horder
        | little => rfl
      exact hlayout
    · have hpos := c.type.size_pos
      have hone : c.type.size = 1 := by
        have hle := of_decide_eq_false hsize
        omega
      rw [hone] at hlayout ⊢
      exact hlayout.of_size_one
  · obtain ⟨c', hc'⟩ : ∃ c', c.flip z level = .ok c' := by
      obtain ⟨type, count, mode, payload⟩ := c
      cases mode with
      | raw => exact ⟨_, rfl⟩
      | rle => exact ⟨_, rfl⟩
      | sigbits => exact ⟨_, rfl⟩
      | deflate => exact absurd rfl hmode
    obtain rfl : order = .big := by
      cases order with
      | big => rfl
      | little => cases hflip
    have hturn : c.toOrder z level .big = c.flip z level := toOrder_of_needsFlip hflip
    exact ⟨c', hturn.trans hc', mode_of_toOrder (hturn.trans hc'), layout_of_flip hlayout hc'⟩

/-- A raw column that is encoded and then written to a message of either byte order gives the tag
of the mode, the length of the payload and the payload, which is the layout of the words of the
column in that order and nothing else. -/
theorem write_encode (hraw : raw.mode = .raw)
    (hlength : raw.payload.length = raw.count * raw.type.size) (hmode : mode ≠ .deflate)
    (level level' : Nat) (order : ByteOrder) :
    ∃ c payload, raw.encode z level mode = .ok c
      ∧ c.write z level' order
        = .ok (mode.tag :: (Word.toBytes order 4 payload.length ++ payload))
      ∧ ∀ payload', Layout order raw.type.size (Sigbits.words raw.type.size raw.payload) mode
          payload' ↔ payload' = payload := by
  obtain ⟨stored, hencode⟩ := exists_encode z raw.type raw.count raw.payload level mode
  have hencode : raw.encode z level mode = .ok ⟨raw.type, raw.count, mode, stored⟩ := by
    rw [← hencode, ← hraw]
  have hnative := layout_of_encode hraw hlength hmode hencode
  obtain ⟨c', hturn, hmode', hlayout⟩ :
      ∃ c', toOrder z level' order ⟨raw.type, raw.count, mode, stored⟩ = .ok c' ∧ c'.mode = mode
        ∧ Layout order raw.type.size (Sigbits.words raw.type.size raw.payload) mode c'.payload :=
    exists_toOrder_layout hmode hnative
  refine ⟨_, c'.payload, hencode, write_eq_ok_iff.2 ⟨c', hturn, ?_⟩, ?_⟩
  · rw [entry, hmode']
  · intro payload'
    constructor
    · exact fun h => h.unique hlayout
    · rintro rfl
      exact hlayout

/-- Three words of two bytes, two of them equal, as runs in the foreign order: the counts stay,
the words are turned around. -/
theorem write_encode_specimen :
    ∃ c, encode Deflate.codec 6 .rle ⟨.uint16, 3, .raw, [1, 2, 1, 2, 3, 4]⟩ = .ok c
      ∧ c.write Deflate.codec 6 .big = .ok [1, 0, 0, 0, 6, 2, 2, 1, 1, 4, 3]
      ∧ Layout .big 2 [0x201, 0x201, 0x403] .rle [2, 2, 1, 1, 4, 3] := by
  have hstored : encode Deflate.codec 6 .rle ⟨.uint16, 3, .raw, [1, 2, 1, 2, 3, 4]⟩
      = .ok ⟨.uint16, 3, .rle, [2, 1, 2, 1, 3, 4]⟩ := by rfl
  have hmessage : write Deflate.codec 6 .big ⟨.uint16, 3, .rle, [2, 1, 2, 1, 3, 4]⟩
      = .ok [1, 0, 0, 0, 6, 2, 2, 1, 1, 4, 3] := by rfl
  have hraw : (⟨.uint16, 3, .raw, [1, 2, 1, 2, 3, 4]⟩ : Column).mode = .raw := rfl
  obtain ⟨c, payload, hencode, hwrite, hlayout⟩ := write_encode (z := Deflate.codec) hraw rfl
    (by decide : Mode.rle ≠ .deflate) 6 6 .big
  obtain rfl := Except.ok.inj (hencode.symm.trans hstored)
  have hpayload : payload = [2, 2, 1, 1, 4, 3] := by
    have hdrop := congrArg (List.drop 5) (Except.ok.inj (hwrite.symm.trans hmessage))
    rwa [List.drop_succ_cons, List.drop_left' (Word.length_toBytes .big 4 _)] at hdrop
  exact ⟨_, hencode, hmessage, (hlayout _).2 hpayload.symm⟩

end Column

end PointPatch
