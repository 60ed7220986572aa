/-
PointPatch/Proofs/Column/SharedBits.lean

What a payload of shared bits stands for, and how short it can be.

A payload need not be one that was written here: its first word may announce
fewer shared bits than there are, the bits in its second word may reach into
those that are not shared, and its stream may be filled up in any way and be
followed by anything.  `IsPayload` says what is asked of it.  That is all that
is asked where memory holds the elements (`exists_decode_iff_isPayload`); where
it does not, that is what a payload is refused for, unless something is missing
(`decode_eq_sharedCapacity_iff`).  Each element is the second word completed by
its field of the stream (`words_of_decode`).

The bits that a payload announces as shared are indeed shared by all elements
that it stands for (`agreeOn_elements`), so it announces no more of them than
are found when these elements are encoded.  All that the length of a payload
hangs on is how many are announced; so no payload for some elements is shorter
than the one that is written (`length_encodeWords_le`).
-/
import PointPatch.Proofs.Bytes.SharedPrefix
import PointPatch.Proofs.Column.Sigbits

namespace PointPatch

namespace Sigbits

variable {memory : Memory} {size count : Nat} {payload bytes : List UInt8}

/-! ### Streams of fields -/

/-- The field in a place of a stream, most significant bit first. -/
def field (width i : Nat) (stream : List UInt8) : Nat :=
  ofBits (slice (i * width) width (unpackBits stream))

/-- A field is no larger than its bits can tell. -/
theorem field_lt (width i : Nat) (stream : List UInt8) : field width i stream < 2 ^ width :=
  (ofBits_lt _).trans_le (Nat.pow_le_pow_right (by decide) (List.length_take_le _ _))

/-! ### Payloads -/

/-- The first word of a payload, the number of bits that it announces as shared. -/
def announced (size : Nat) (payload : List UInt8) : Nat := Word.ofLittle (payload.take size)

/-- The second word of a payload, which every element is made from. -/
def common (size : Nat) (payload : List UInt8) : Nat := Word.ofLittle (slice size size payload)

/-- How many bits each element has of its own. -/
def ownWidth (size : Nat) (payload : List UInt8) : Nat := 8 * size - announced size payload

/-- What is asked of a payload: both words, the first of which counts no more bits than a word
has, and as many bytes of the stream as the fields of all elements take. -/
structure IsPayload (size count : Nat) (payload : List UInt8) : Prop where
  header : 2 * size ≤ payload.length
  announced_le : announced size payload ≤ 8 * size
  stream : (count * ownWidth size payload + 7) / 8 ≤ (payload.drop (2 * size)).length

theorem ownWidth_le (size : Nat) (payload : List UInt8) : ownWidth size payload ≤ 8 * size :=
  Nat.sub_le _ _

theorem streamBytes_ownWidth (hcount : count * (8 * size) < 2 ^ 64) :
    streamBytes count (ownWidth size payload) = (count * ownWidth size payload + 7) / 8 :=
  streamBytes_of_lt (Nat.lt_of_le_of_lt (Nat.mul_le_mul_left count (ownWidth_le size payload)) hcount)

/-- What is read of a payload is what is asked of it, and that memory holds the elements. -/
theorem isReadable_iff_isPayload (hcount : count * (8 * size) < 2 ^ 64) :
    IsReadable memory size count payload ↔
      IsPayload size count payload ∧ memory.grants (count * size) = true := by
  have hstream : streamBytes count (ownWidth size payload)
      = (count * ownWidth size payload + 7) / 8 := streamBytes_ownWidth hcount
  rw [ownWidth, announced] at hstream
  constructor
  · rintro ⟨hheader, hshared, hlong, hgranted⟩
    refine ⟨⟨hheader, hshared, ?_⟩, hgranted⟩
    rw [ownWidth, announced, List.length_drop, ← hstream]
    omega
  · rintro ⟨⟨hheader, hshared, hlong⟩, hgranted⟩
    refine ⟨hheader, hshared, ?_, hgranted⟩
    rw [ownWidth, announced, List.length_drop] at hlong
    rw [hstream]
    omega

/-! ### Refusals -/

/-- Why a payload is refused: something that is asked of it is missing, or memory does not hold
the elements of one of which nothing is.  That a field is too large is never the reason. -/
theorem cases_of_decode_eq_error (hsize : isSupported size = true)
    (hcount : count * (8 * size) < 2 ^ 64) {fault : Fault}
    (h : decode size count payload memory = .error fault) :
    (¬ IsPayload size count payload ∧ (fault = .sharedHeader payload.length (2 * size)
        ∨ fault = .sharedCount (8 * size)
        ∨ fault = .sharedStream (payload.drop (2 * size)).length
            ((count * ownWidth size payload + 7) / 8)))
      ∨ (IsPayload size count payload ∧ memory.grants (count * size) = false
          ∧ fault = .sharedCapacity count size) := by
  have hstream : streamBytes count (ownWidth size payload)
      = (count * ownWidth size payload + 7) / 8 := streamBytes_ownWidth hcount
  by_cases hreadable : IsReadable memory size count payload
  · obtain ⟨out, hout⟩ := (exists_decode_iff hsize).2 hreadable
    rw [hout] at h
    cases h
  rw [decode, if_pos hsize, decodeWords] at h
  by_cases hheader : payload.length < 2 * size
  · -- the two words are not there
    rw [if_pos hheader] at h
    cases h
    exact .inl ⟨fun hp => absurd hp.header (Nat.not_le.2 hheader), .inl rfl⟩
  rw [if_neg hheader] at h
  dsimp only at h
  by_cases hshared : 8 * size < Word.ofLittle (payload.take size)
  · -- more bits are announced than a word has
    rw [if_pos hshared] at h
    cases h
    exact .inl ⟨fun hp => absurd hp.announced_le (Nat.not_le.2 hshared), .inr (.inl rfl)⟩
  rw [if_neg hshared] at h
  rw [ownWidth, announced] at hstream
  rw [hstream] at h
  by_cases hlong : (payload.drop (2 * size)).length
      < (count * (8 * size - Word.ofLittle (payload.take size)) + 7) / 8
  · -- the stream ends too soon
    rw [if_pos hlong] at h
    cases h
    exact .inl ⟨fun hp => absurd hp.stream (Nat.not_le.2 hlong), .inr (.inr rfl)⟩
  rw [if_neg hlong] at h
  have hpayload : IsPayload size count payload :=
    ⟨Nat.not_lt.1 hheader, Nat.not_lt.1 hshared, Nat.not_lt.1 hlong⟩
  have hrefused : ¬ memory.grants (count * size) = true := fun hgranted =>
    hreadable ((isReadable_iff_isPayload hcount).2 ⟨hpayload, hgranted⟩)
  rw [if_neg hrefused] at h
  cases h
  exact .inr ⟨hpayload, Bool.not_eq_true _ ▸ hrefused, rfl⟩

/-- Memory is the reason only where nothing is missing. -/
theorem decode_eq_sharedCapacity_iff (hsize : isSupported size = true)
    (hcount : count * (8 * size) < 2 ^ 64) :
    decode size count payload memory = .error (.sharedCapacity count size) ↔
      IsPayload size count payload ∧ memory.grants (count * size) = false := by
  constructor
  · intro h
    obtain ⟨-, hfault | hfault | hfault⟩ | ⟨hpayload, hrefused, -⟩ :=
      cases_of_decode_eq_error hsize hcount h
    · cases hfault
    · cases hfault
    · cases hfault
    · exact ⟨hpayload, hrefused⟩
  · rintro ⟨hpayload, hrefused⟩
    rcases hdecode : decode size count payload memory with fault | out
    · obtain ⟨hmissing, -⟩ | ⟨-, -, rfl⟩ := cases_of_decode_eq_error hsize hcount hdecode
      · exact absurd hpayload hmissing
      · rfl
    · have hgranted := ((exists_decode_iff hsize).1 ⟨out, hdecode⟩).granted
      rw [hrefused] at hgranted
      cases hgranted

/-- Where memory holds the elements, the payloads that can be decoded are those that have everything
that is asked of them. -/
theorem exists_decode_iff_isPayload (hsize : isSupported size = true)
    (hcount : count * (8 * size) < 2 ^ 64) (hgranted : memory.grants (count * size) = true) :
    (∃ out, decode size count payload memory = .ok out) ↔ IsPayload size count payload := by
  rw [exists_decode_iff hsize, isReadable_iff_isPayload hcount, and_iff_left hgranted]

theorem decode_ne_sharedOverflow (hsize : isSupported size = true)
    (hcount : count * (8 * size) < 2 ^ 64) :
    decode size count payload memory ≠ .error .sharedOverflow := by
  intro h
  obtain ⟨-, hfault | hfault | hfault⟩ | ⟨-, -, hfault⟩ :=
    cases_of_decode_eq_error hsize hcount h
  · cases hfault
  · cases hfault
  · cases hfault
  · cases hfault

/-! ### Elements -/

/-- The elements of a payload as words: the second word, completed by one field each. -/
def elements (size count : Nat) (payload : List UInt8) : List Nat :=
  (List.range count).map fun i =>
    common size payload ||| field (ownWidth size payload) i (payload.drop (2 * size))

theorem length_elements (size count : Nat) (payload : List UInt8) :
    (elements size count payload).length = count := by
  rw [elements, List.length_map, List.length_range]

theorem common_lt (hheader : 2 * size ≤ payload.length) : common size payload < 2 ^ (8 * size) := by
  have hlt := Word.ofLittle_lt (slice size size payload)
  rwa [length_slice (by omega), ← two_pow_eight_mul] at hlt

theorem elements_lt (count : Nat) (hheader : 2 * size ≤ payload.length) :
    ∀ w ∈ elements size count payload, w < 2 ^ (8 * size) := by
  refine List.forall_mem_map.2 fun i _ => Nat.or_lt_two_pow (common_lt hheader) ?_
  exact (field_lt _ i _).trans_le (Nat.pow_le_pow_right (by decide) (ownWidth_le size payload))

/-- A payload that decodes gives the bytes of its elements. -/
theorem eq_of_decode (h : decode size count payload memory = .ok bytes) :
    bytes = (elements size count payload).flatMap (Word.toLittle size) := by
  rw [decode] at h
  split at h
  · obtain ⟨ws, hws, h⟩ := map_eq_ok_iff.1 h
    rw [decodeWords_eq_ok_of_isReadable (isReadable_of_decodeWords hws), Except.ok.injEq,
      chunksOf_eq_map_slice, List.map_map, List.map_map] at hws
    rw [← h, ← hws, elements]
    rfl
  · cases h

theorem isSupported_of_decode (h : decode size count payload memory = .ok bytes) :
    isSupported size = true := by
  rw [decode] at h
  split at h
  · assumption
  · cases h

theorem isReadable_of_decode (h : decode size count payload memory = .ok bytes) :
    IsReadable memory size count payload :=
  (exists_decode_iff (isSupported_of_decode h)).1 ⟨bytes, h⟩

/-- The words that a payload decodes to. -/
theorem words_of_decode (h : decode size count payload memory = .ok bytes) :
    words size bytes = elements size count payload := by
  rw [eq_of_decode h, words, chunks_flatMap (size_pos_of_isSupported (isSupported_of_decode h))
    fun w _ => Word.length_toLittle size w, List.map_map]
  have hid : (elements size count payload).map (Word.ofLittle ∘ Word.toLittle size)
      = (elements size count payload).map id := by
    refine List.map_congr_left fun w hw => Word.ofLittle_toLittle ?_
    rw [← two_pow_eight_mul]
    exact elements_lt count (isReadable_of_decode h).header w hw
  rw [hid, List.map_id]

/-! ### The shortest payload -/

/-- The elements of a payload share the bits that it announces as shared. -/
theorem agreeOn_elements (size count : Nat) (payload : List UInt8) :
    AgreeOn (8 * size) (announced size payload) (elements size count payload) := by
  have hleading : ∀ w ∈ elements size count payload, w >>> ownWidth size payload
      = common size payload >>> ownWidth size payload := by
    refine List.forall_mem_map.2 fun i _ => ?_
    rw [Nat.shiftRight_or_distrib, Nat.shiftRight_eq_zero _ _ (field_lt _ i _), Nat.or_zero]
  exact fun v hv w hw => (hleading v hv).trans (hleading w hw).symm

/-- No payload that decodes to some elements is shorter than the one that is written for them. -/
theorem length_encodeWords_le (h : IsPayload size count payload) :
    (encodeWords size (elements size count payload)).length ≤ payload.length := by
  have hheader := h.header
  have hstream := h.stream
  have hshared := isSharedPrefix_commonBits (elements_lt count hheader)
  -- more bits are found to be shared than are announced
  have hfound := (hshared.agreeOn_iff _ h.announced_le).1 (agreeOn_elements size count payload)
  have hown : count * (8 * size - (commonBits (8 * size) (elements size count payload)).1)
      ≤ count * ownWidth size payload :=
    Nat.mul_le_mul_left count (Nat.sub_le_sub_left hfound (8 * size))
  rw [length_encodeWords, length_elements]
  rw [List.length_drop] at hstream
  omega

/-- What is written for the words that a payload decodes to decodes to the same, and is no
longer. -/
theorem decode_and_length_encodeWords (hcount : count * (8 * size) < 2 ^ 64)
    (h : decode size count payload memory = .ok bytes) :
    decode size count (encodeWords size (words size bytes)) memory = .ok bytes
      ∧ (encodeWords size (words size bytes)).length ≤ payload.length := by
  obtain ⟨hpayload, hgranted⟩ := (isReadable_iff_isPayload hcount).1 (isReadable_of_decode h)
  refine ⟨decode_encode (length_of_decode h) hgranted (if_pos (isSupported_of_decode h)), ?_⟩
  rw [words_of_decode h]
  exact length_encodeWords_le hpayload

/-- What the reader of shared bits accepts, for all payloads and as many elements as have their
bits counted in a machine word, and what it gives; and that nothing which it accepts is shorter
than what is written for the same elements.  Whatever memory there is, it has no part in this but
that a payload is refused, and for that reason, if memory does not hold its elements. -/
theorem isPayload_and_shortest_sharedBits (hsize : isSupported size = true) :
    (∀ memory count payload, count * (8 * size) < 2 ^ 64 →
      (memory.grants (count * size) = true →
        ((∃ bytes, decode size count payload memory = .ok bytes) ↔ IsPayload size count payload))
      ∧ (memory.grants (count * size) = false →
        (∃ fault, decode size count payload memory = .error fault)
        ∧ (decode size count payload memory = .error (.sharedCapacity count size) ↔
            IsPayload size count payload))
      ∧ decode size count payload memory ≠ .error .sharedOverflow)
    ∧ (∀ memory count payload bytes, decode size count payload memory = .ok bytes →
        bytes.length = count * size ∧ words size bytes = (List.range count).map fun i =>
          common size payload ||| field (ownWidth size payload) i (payload.drop (2 * size)))
    ∧ ∀ bytes : List UInt8, ∃ shortest, encode size bytes = .ok shortest
        ∧ ∀ memory count payload, count * (8 * size) < 2 ^ 64 →
            decode size count payload memory = .ok bytes →
            decode size count shortest memory = .ok bytes ∧ shortest.length ≤ payload.length := by
  refine ⟨fun memory count payload hcount => ⟨?_, fun hrefused => ⟨?_, ?_⟩, ?_⟩,
    fun memory count payload bytes h => ⟨?_, ?_⟩,
    fun bytes => ⟨_, if_pos hsize, fun memory count payload hcount h =>
      decode_and_length_encodeWords hcount h⟩⟩
  · exact exists_decode_iff_isPayload hsize hcount
  · rcases hdecode : decode size count payload memory with fault | out
    · exact ⟨fault, rfl⟩
    · have hgranted := (isReadable_of_decode hdecode).granted
      rw [hrefused] at hgranted
      cases hgranted
  · rw [decode_eq_sharedCapacity_iff hsize hcount, and_iff_left hrefused]
  · exact decode_ne_sharedOverflow hsize hcount
  · exact length_of_decode h
  · exact words_of_decode h

/-- Three elements of a payload that announces four shared bits of six, with bits of its second
word where the elements have their own, and with two bytes too many; one byte fewer than its fields
take; and a payload of two bytes for more elements than a tebibyte holds. -/
theorem isPayload_and_shortest_sharedBits_three :
    isSupported 1 = true
    ∧ decode 1 3 [4, 0xa5, 0x12, 0x3f, 0xff, 0xff] = .ok [0xa5, 0xa7, 0xa7]
    ∧ (¬ ∃ bytes, decode 1 3 [4, 0xa5, 0x12] = .ok bytes)
    ∧ (∃ bytes, decode 1 (2 ^ 60) [8, 0xa5] .addressable = .ok bytes ∧ bytes.length = 2 ^ 60)
    ∧ decode 1 (2 ^ 60) [8, 0xa5] .tebibyte = .error (.sharedCapacity (2 ^ 60) 1)
    ∧ encode 1 [0xa5, 0xa7, 0xa7] = .ok [6, 0xa4, 0x7c]
    ∧ [6, 0xa4, 0x7c].length ≤ [4, 0xa5, 0x12, 0x3f, 0xff, 0xff].length := by
  have hsize : isSupported 1 = true := rfl
  obtain ⟨hread, hwords, hshortest⟩ := isPayload_and_shortest_sharedBits hsize
  have hdecode : decode 1 3 [4, 0xa5, 0x12, 0x3f, 0xff, 0xff] = .ok [0xa5, 0xa7, 0xa7] := by
    decide
  have hencode : encode 1 [0xa5, 0xa7, 0xa7] = .ok [6, 0xa4, 0x7c] := by decide
  -- all bits are shared, so two bytes are enough for any number of elements
  have hmany : IsPayload 1 (2 ^ 60) [8, 0xa5] := ⟨by decide, by decide, by decide⟩
  refine ⟨hsize, hdecode, ?_, ?_, ?_, hencode, ?_⟩
  · -- the stream ends too soon
    rw [(hread .tebibyte 3 [4, 0xa5, 0x12] (by decide)).1 (by decide)]
    exact fun h => absurd h.stream (by decide)
  · obtain ⟨bytes, hbytes⟩ :=
      ((hread .addressable (2 ^ 60) [8, 0xa5] (by decide)).1 (by decide)).2 hmany
    exact ⟨bytes, hbytes, (hwords _ _ _ _ hbytes).1⟩
  · exact ((hread .tebibyte (2 ^ 60) [8, 0xa5] (by decide)).2.1 (by decide)).2.2 hmany
  · obtain ⟨shortest, hencode', hall⟩ := hshortest [0xa5, 0xa7, 0xa7]
    obtain rfl := Except.ok.inj (hencode.symm.trans hencode')
    exact (hall .tebibyte 3 _ (by decide) hdecode).2

end Sigbits

end PointPatch
