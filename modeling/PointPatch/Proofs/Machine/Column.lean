/-
PointPatch/Proofs/Machine/Column.lean

Columns as a machine reads them.

The operations on columns, with every sum and product kept in a word, and with
every buffer reached into by place.  Each is followed by the statement that it
is the lift of the operation of the library.  What it takes for that is little:
a message is no longer than a machine can address, and the two numbers that a
message states, of points and of payload bytes, stand in four bytes each.
-/
import PointPatch.Proofs.Column.ByteOrder
import PointPatch.Proofs.Column.RunLength
import PointPatch.Proofs.Column.Sigbits
import PointPatch.Proofs.Machine.Basic
import PointPatch.Proofs.Wire.Cursor

namespace PointPatch

namespace Machine

variable {z : ColumnCodec} {level size count : Nat} {payload : List UInt8} {c : Column}

/-! ### Sizes in a word -/

theorem size_succ_lt (hsize : size ≤ 8) : size + 1 < wordLimit :=
  Nat.lt_of_le_of_lt (Nat.succ_le_succ hsize) (by decide)

theorem two_mul_size_lt (hsize : size ≤ 8) : 2 * size < wordLimit :=
  Nat.lt_of_le_of_lt (Nat.mul_le_mul_left 2 hsize) (by decide)

/-- The bytes of as many elements as a message can state can be counted. -/
theorem count_mul_size_lt (hcount : count < 256 ^ 4) (hsize : size ≤ 8) :
    count * size < wordLimit :=
  Nat.lt_of_le_of_lt (Nat.mul_le_mul (Nat.le_of_lt hcount) hsize) (by decide)

/-! ### Turning columns around -/

/-- The words of a buffer turned around. -/
def turnWords (size : Nat) (bytes : List UInt8) : Machine (List UInt8) := do
  if size ≤ 1 then return bytes
  let words ← pieces size bytes
  return (words.map List.reverse).flatten ++ bytes.drop (bytes.length / size * size)

/-- The values of runs turned around. -/
def turnRuns (size : Nat) (payload : List UInt8) : Machine (List UInt8) := do
  let pairSize ← add size 1
  let pairs ← pieces pairSize payload
  let turned ← pairs.mapM fun pair => do
    let value ← range 1 pair.length pair
    let value ← turnWords size value
    return pair.take 1 ++ value
  return turned.flatten ++ payload.drop (payload.length / pairSize * pairSize)

/-- The two words in front of shared bits turned around. -/
def turnShared (size : Nat) (payload : List UInt8) : Machine (List UInt8) := do
  if size ≤ 1 then return payload
  let header ← mul 2 size
  if payload.length < header then return payload
  let shared ← range 0 size payload
  let payload ← replace 0 size shared.reverse payload
  let common ← range size header payload
  replace size header common.reverse payload

/-- A column with the byte order of every element word turned around. -/
def turnColumn (z : ColumnCodec) (level : Nat) (c : Column) : Machine Column := do
  let payload ← match c.mode with
    | .raw => turnWords c.type.size c.payload
    | .rle => turnRuns c.type.size c.payload
    | .sigbits => turnShared c.type.size c.payload
    | .deflate => do
      let content ← lift (Deflate.decode z c.rawLength c.payload)
      let content ← turnWords c.type.size content
      pure (z.pack level content)
  return { c with payload }

/-- The column as it comes out of a message of the given order. -/
def turnFor (z : ColumnCodec) (level : Nat) (order : ByteOrder) (c : Column) : Machine Column :=
  if c.needsFlip order then turnColumn z level c else pure c

theorem turnWords_eq (h : 1 < size) (bytes : List UInt8) :
    turnWords size bytes = pure (reverseChunks size bytes) := by
  rw [turnWords, if_neg (Nat.not_le.2 h), pieces_eq (Nat.ne_of_gt (Nat.zero_lt_of_lt h)), pure_bind]
  rfl

theorem turnRuns_eq (h : 1 < size) (hsize : size ≤ 8) (payload : List UInt8) :
    turnRuns size payload = pure (RunLength.flip size payload) := by
  have hpair : ∀ pair ∈ chunks (size + 1) payload,
      (range 1 pair.length pair >>= fun value => turnWords size value >>= fun value =>
        (pure (pair.take 1 ++ value) : Machine (List UInt8))) = pure (RunLength.flipPair pair) := by
    intro pair hpair
    have hlength := length_of_mem_chunks hpair
    have hvalue : (pair.drop 1).length = size := by
      rw [List.length_drop, hlength, Nat.add_sub_cancel]
    have hone : chunks size (pair.drop 1) = [pair.drop 1] := by
      have hflat := chunks_flatten (Nat.zero_lt_of_lt h) (List.forall_mem_singleton.2 hvalue)
      rwa [List.flatten_singleton] at hflat
    -- the value of a pair is a single word
    have hturned : reverseChunks size (pair.drop 1) = (pair.drop 1).reverse := by
      rw [reverseChunks, hone, hvalue, Nat.div_self (Nat.zero_lt_of_lt h), Nat.one_mul,
        ← hvalue, List.drop_length]
      simp
    rw [range_to_end (by omega), pure_bind, turnWords_eq h, pure_bind, hturned]
    rfl
  rw [turnRuns, add_eq (size_succ_lt hsize), pure_bind, pieces_eq (Nat.succ_ne_zero size), pure_bind,
    mapM_eq_pure hpair, pure_bind, RunLength.flip_eq_mapPieces, mapPieces, List.flatMap_def]

theorem turnShared_eq (h : 1 < size) (hsize : size ≤ 8) (payload : List UInt8) :
    turnShared size payload = pure (Sigbits.flip size payload) := by
  rw [turnShared, if_neg (Nat.not_le.2 h), mul_eq (two_mul_size_lt hsize), pure_bind, Sigbits.flip]
  rcases Nat.lt_or_ge payload.length (2 * size) with hshort | hlong
  · rw [if_pos hshort, if_pos hshort]
  · obtain ⟨a, b, rest, ha, hb, rfl⟩ := Sigbits.exists_parts hlong
    have hnot := Nat.not_lt.2 hlong
    have hab : (a ++ b).length = 2 * size := by
      rw [List.length_append, ha, hb]
      omega
    have hshared : range 0 size (a ++ b ++ rest) = pure a := by
      rw [range_eq (Nat.zero_le size) (by omega), List.append_assoc]
      exact congrArg pure (slice_append_append (a := []) (b := a) rfl ha (b ++ rest))
    have hfirst : replace 0 size a.reverse (a ++ b ++ rest) = pure (a.reverse ++ b ++ rest) := by
      rw [replace_eq (Nat.zero_le size) (by omega) (by rw [List.length_reverse]; omega),
        List.append_assoc, List.append_assoc]
      exact congrArg pure
        (overwrite_append_append (a := []) (b := a) rfl List.length_reverse.symm (b ++ rest))
    have hcommon : range size (2 * size) (a.reverse ++ b ++ rest) = pure b := by
      rw [range_eq (by omega) (by simp only [List.length_append, List.length_reverse]; omega)]
      exact congrArg pure (slice_append_append (by rw [List.length_reverse, ha]) (by omega) rest)
    have hsecond : replace size (2 * size) b.reverse (a.reverse ++ b ++ rest)
        = pure (a.reverse ++ b.reverse ++ rest) := by
      rw [replace_eq (by omega) (by simp only [List.length_append, List.length_reverse]; omega)
        (by rw [List.length_reverse]; omega)]
      exact congrArg pure
        (overwrite_append_append (by rw [List.length_reverse, ha]) List.length_reverse.symm rest)
    rw [if_neg hnot, hshared, pure_bind, hfirst, pure_bind, hcommon, pure_bind, hsecond,
      ← Sigbits.flip, Sigbits.flip_append_append ha hb]

/-- Turning a column around never stops the machine. -/
theorem turnColumn_eq (h : 1 < c.type.size) : turnColumn z level c = lift (c.flip z level) := by
  have hsize := c.type.size_le
  obtain ⟨type, count, mode, payload⟩ := c
  cases mode with
  | raw =>
    show (turnWords type.size payload >>= _) = _
    rw [turnWords_eq h]
    rfl
  | rle =>
    show (turnRuns type.size payload >>= _) = _
    rw [turnRuns_eq h hsize]
    rfl
  | sigbits =>
    show (turnShared type.size payload >>= _) = _
    rw [turnShared_eq h hsize]
    rfl
  | deflate =>
    refine bind_eq_lift rfl ?_
    intro content _
    show (turnWords type.size content >>= _) = _
    rw [turnWords_eq h]
    rfl

theorem turnFor_eq (order : ByteOrder) (c : Column) :
    turnFor z level order c = lift (c.toOrder z level order) := by
  rw [turnFor, Column.toOrder]
  by_cases hflip : c.needsFlip order = true
  · rw [if_pos hflip, if_pos hflip]
    rw [Column.needsFlip, Bool.and_eq_true, decide_eq_true_eq] at hflip
    exact turnColumn_eq hflip.2
  · rw [if_neg hflip, if_neg hflip]
    rfl

/-! ### Reading columns -/

/-- The next bytes of a message. -/
def readBytes (message : List UInt8) (n : Nat) (c : Cursor) : Machine (List UInt8 × Cursor) := do
  let stop := c.position + n
  if wordLimit ≤ stop ∨ message.length < stop then
    throw (.sliceBeyondEnd n c.position (message.length - c.position))
  let bytes ← range c.position stop message
  return (bytes, ⟨stop, message.drop stop⟩)

/-- Reads a column of `count` values. -/
def readColumn (z : ColumnCodec) (level : Nat) (order : ByteOrder) (message : List UInt8)
    (type : Interpretation) (count : Nat) (c : Cursor) : Machine (Column × Cursor) := do
  let (tag, c) ← lift c.byte
  let mode ← lift (Mode.ofTag tag)
  let (length, c) ← lift (c.word order)
  let (payload, c) ← readBytes message length c
  if mode = .raw ∧ (wordLimit ≤ count * type.size ∨ length ≠ count * type.size) then
    throw (.rawColumnLength type length count)
  let column ← turnFor z level order ⟨type, count, mode, payload⟩
  return (column, c)

/-- Whether a cursor has come to a place of a message. -/
def IsIn (message : List UInt8) (c : Cursor) : Prop :=
  c.position ≤ message.length ∧ c.rest = message.drop c.position

variable {message : List UInt8} {c' : Cursor}

theorem isIn_start (message : List UInt8) : IsIn message (.start message) :=
  ⟨Nat.zero_le _, rfl⟩

/-- A cursor that moves over what it has in front of it stays in the message. -/
theorem IsIn.step {c : Cursor} {b : List UInt8} (h : IsIn message c)
    (hrest : c.rest = b ++ c'.rest) (hposition : c'.position = c.position + b.length) :
    IsIn message c' := by
  obtain ⟨hle, hdrop⟩ := h
  have hlength : b.length + c'.rest.length = message.length - c.position := by
    rw [← List.length_append, ← hrest, hdrop, List.length_drop]
  refine ⟨by omega, ?_⟩
  rw [hposition, ← List.drop_drop, ← hdrop, hrest, List.drop_left]

/-- Reading bytes never stops the machine. -/
theorem readBytes_eq {c : Cursor} (h : IsIn message c) (hmessage : message.length < wordLimit)
    (n : Nat) : readBytes message n c = lift (c.bytes n) := by
  obtain ⟨position, rest⟩ := c
  obtain ⟨hle, hrest⟩ := h
  simp only at hle hrest
  subst hrest
  rw [readBytes, Cursor.bytes, List.length_drop]
  simp only
  by_cases hshort : message.length - position < n
  · rw [if_pos hshort, if_pos (by omega)]
    rfl
  · rw [if_neg hshort, if_neg (by omega), range_eq (by omega) (by omega), pure_bind,
      Nat.add_sub_cancel_left, Cursor.advance, List.drop_drop]
    rfl

/-- Reading a column never stops the machine. -/
theorem readColumn_eq {order : ByteOrder} {type : Interpretation} {c : Cursor} (h : IsIn message c)
    (hmessage : message.length < wordLimit) :
    readColumn z level order message type count c
      = lift (Column.read z level order type count c) := by
  rw [readColumn, Column.read]
  refine bind_eq_lift rfl ?_
  rintro ⟨tag, c₁⟩ h₁
  refine bind_eq_lift rfl ?_
  intro mode h₂
  refine bind_eq_lift rfl ?_
  rintro ⟨length, c₂⟩ h₃
  obtain ⟨hrest₁, hposition₁⟩ := Cursor.byte_eq_ok_iff.1 h₁
  obtain ⟨hlength, hrest₂, hposition₂⟩ := Cursor.word_eq_ok_iff.1 h₃
  have hin₁ : IsIn message c₁ := h.step (b := [tag]) hrest₁ hposition₁
  have hin₂ : IsIn message c₂ :=
    hin₁.step hrest₂ (by rw [hposition₂, Word.length_toBytes])
  refine bind_eq_lift (readBytes_eq hin₂ hmessage length) ?_
  rintro ⟨payload, c₃⟩ -
  -- a length of four bytes is none of a product that does not fit into eight
  have hraw : (mode = .raw ∧ (wordLimit ≤ count * type.size ∨ length ≠ count * type.size))
      ↔ (mode = .raw ∧ length ≠ count * type.size) := by
    refine and_congr_right fun _ => ⟨fun h => ?_, Or.inr⟩
    rcases h with hlimit | hne
    · have : (256 : Nat) ^ 4 ≤ wordLimit := by decide
      omega
    · exact hne
  simp only [hraw]
  refine check_eq_lift ?_
  intro _
  exact bind_eq_lift (turnFor_eq order _) fun column _ => rfl

/-! ### Decoding columns -/

/-- The number of elements that pairs stand for; none may stand for no element. -/
def countRuns (pairs : List (List UInt8)) (start : Nat) : Machine Nat :=
  pairs.foldlM (fun total pair => do
    let n ← item pair 0
    if n = 0 then throw .emptyRun
    add total n.toNat) start

/-- The elements that runs stand for. -/
def decodeRuns (size count : Nat) (payload : List UInt8) : Machine (List UInt8) := do
  let pairSize ← add size 1
  let leftover ← remainder payload.length pairSize
  if leftover ≠ 0 then throw (.partialPairs payload.length pairSize)
  let pairs ← pieces pairSize payload
  let total ← countRuns pairs 0
  if total ≠ count then throw (.runTotal total count)
  let _ ← mul count size
  let parts ← pairs.mapM fun pair => do
    let value ← range 1 pair.length pair
    let n ← item pair 0
    return (List.replicate n.toNat value).flatten
  return parts.flatten

/-- The fields of a stream of bits, which cannot be of no bits. -/
def bitFields (width count : Nat) (bits : List Bool) : Machine (List Nat) :=
  if width = 0 then halt else pure ((chunksOf width count bits).map ofBits)

/-- The number of bytes of some elements, or the last number of a word where it is larger. -/
def lengthWithin (count size : Nat) : Nat := min (count * size) (wordLimit - 1)

/-- The elements that shared bits and a stream stand for. -/
def decodeShared (memory : Memory) (size count : Nat) (payload : List UInt8) :
    Machine (List UInt8) := do
  if Sigbits.isSupported size = false then throw (.unsupportedWidth size)
  let width := 8 * size
  let header ← mul 2 size
  if payload.length < header then throw (.sharedHeader payload.length header)
  let shared ← range 0 size payload
  let common ← range size header payload
  if width < Word.ofLittle shared then throw (.sharedCount width)
  let unique ← sub width (Word.ofLittle shared)
  let body ← range header payload.length payload
  let needed := Sigbits.streamBytes count unique
  if body.length < needed then throw (.sharedStream body.length needed)
  if memory.grants (lengthWithin count size) = false then throw (.sharedCapacity count size)
  if unique = 0 then
    return (List.replicate count (Word.toLittle size (Word.ofLittle common))).flatten
  let fields ← bitFields unique count (unpackBits body)
  if ¬ fields.all (fun low => low < 2 ^ width) then throw .sharedOverflow
  return fields.flatMap fun low => Word.toLittle size (Word.ofLittle common ||| low)

/-- The raw form of a column. -/
def decodeColumn (z : ColumnCodec) (c : Column) : Machine Column := do
  let payload ← match c.mode with
    | .raw => pure c.payload
    | .rle => decodeRuns c.type.size c.count c.payload
    | .sigbits => decodeShared z.memory c.type.size c.count c.payload
    | .deflate => lift (Deflate.decode z c.rawLength c.payload)
  return { c with mode := .raw, payload }

theorem countRuns_eq {pairs : List (List UInt8)} (hpairs : ∀ pair ∈ pairs, pair ≠ [])
    {start : Nat} (hfits : start + 255 * pairs.length < wordLimit) :
    countRuns pairs start
      = lift (if (pairs.map RunLength.ofPair).any (fun r => r.count == 0) then .error .emptyRun
        else .ok (start + ((pairs.map RunLength.ofPair).map Run.count).sum)) := by
  induction pairs generalizing start with
  | nil => rfl
  | cons pair pairs ih =>
    cases pair with
    | nil => exact absurd rfl (hpairs [] List.mem_cons_self)
    | cons n value =>
      have hn := n.toNat_lt
      rw [List.length_cons] at hfits
      have hfits' : start + n.toNat + 255 * pairs.length < wordLimit := by omega
      have hrest := ih (fun p hp => hpairs p (List.mem_cons_of_mem _ hp)) hfits'
      have hzero : n = 0 ↔ n.toNat = 0 := UInt8.toNat_inj.symm
      rw [countRuns] at hrest ⊢
      rw [List.foldlM_cons, item_eq (x := n) rfl, pure_bind]
      by_cases h : n = 0
      · simp only [h, List.map_cons, RunLength.ofPair, List.any_cons]
        rfl
      · rw [if_neg h, add_eq (by omega), pure_bind, hrest]
        simp only [List.map_cons, RunLength.ofPair, List.any_cons, List.sum_cons,
          beq_eq_false_iff_ne.2 (fun h' => h (hzero.2 h')), Bool.false_or, Nat.add_assoc]

/-- The parts that pairs stand for make what their runs stand for. -/
theorem runParts_eq {pairs : List (List UInt8)} (hpairs : ∀ pair ∈ pairs, pair ≠ []) :
    (do
      let parts ← pairs.mapM fun pair => do
        let value ← range 1 pair.length pair
        let n ← item pair 0
        return (List.replicate n.toNat value).flatten
      return parts.flatten : Machine (List UInt8))
      = pure (expandRuns (pairs.map RunLength.ofPair)).flatten := by
  have hpart : ∀ pair ∈ pairs,
      (range 1 pair.length pair >>= fun value => item pair 0 >>= fun n =>
        (pure (List.replicate n.toNat value).flatten : Machine (List UInt8)))
      = pure (List.replicate (RunLength.ofPair pair).count (RunLength.ofPair pair).value).flatten := by
    intro pair hpair
    cases pair with
    | nil => exact absurd rfl (hpairs [] hpair)
    | cons n value =>
      rw [range_to_end (by rw [List.length_cons]; omega), pure_bind, item_eq (x := n) rfl, pure_bind]
      rfl
  rw [mapM_eq_pure hpart, pure_bind, expandRuns, List.flatMap_def, List.map_map,
    List.flatten_flatten, List.map_map]
  rfl

/-- Decoding runs never stops the machine. -/
theorem decodeRuns_eq (hsize : size ≤ 8) (hcount : count < 256 ^ 4)
    (hlength : payload.length < 256 ^ 4) :
    decodeRuns size count payload = lift (RunLength.decode size count payload) := by
  -- no pair stands for more elements than a byte counts
  have htotal : 0 + 255 * (chunks (size + 1) payload).length < wordLimit := by
    have hle := Nat.div_le_self payload.length (size + 1)
    have hlimit : 255 * 256 ^ 4 < wordLimit := by decide
    rw [length_chunks]
    omega
  have hpairs : ∀ pair ∈ chunks (size + 1) payload, pair ≠ [] := by
    rintro pair hpair rfl
    cases length_of_mem_chunks hpair
  rw [decodeRuns, add_eq (size_succ_lt hsize), pure_bind, remainder_eq (Nat.succ_ne_zero size), pure_bind,
    RunLength.decode]
  by_cases hmod : payload.length % (size + 1) ≠ 0
  · -- a partial pair
    rw [if_pos hmod, if_pos hmod]
    rfl
  rw [if_neg hmod, if_neg hmod, pieces_eq (Nat.succ_ne_zero size), pure_bind,
    countRuns_eq hpairs htotal, Nat.zero_add]
  dsimp only
  rw [← List.sum_eq_foldr]
  by_cases hempty : ((chunks (size + 1) payload).map RunLength.ofPair).any (fun r => r.count == 0)
  · -- an empty run
    rw [if_pos hempty, if_pos hempty]
    rfl
  rw [if_neg hempty, if_neg hempty, lift_ok, pure_bind, mul_eq (count_mul_size_lt hcount hsize),
    pure_bind, runParts_eq hpairs]
  by_cases hne : (((chunks (size + 1) payload).map RunLength.ofPair).map Run.count).sum ≠ count
  · rw [if_pos hne, if_pos hne]
    rfl
  · rw [if_neg hne, if_neg hne]
    rfl

theorem fields_of_no_bits (count : Nat) (bits : List Bool) :
    (chunksOf 0 count bits).map ofBits = List.replicate count 0 := by
  induction count generalizing bits with
  | zero => rfl
  | succ count ih =>
    rw [chunksOf, List.map_cons, ih, List.replicate_succ, List.take_zero]
    rfl

/-- The machine completes shared bits as the library does, although it looks at the stream only
if elements have bits of their own. -/
theorem sharedElements_eq (size count common unique : Nat) (bits : List Bool) :
    (do
      if unique = 0 then
        return (List.replicate count (Word.toLittle size common)).flatten
      let fields ← bitFields unique count bits
      if ¬ fields.all (fun low => low < 2 ^ (8 * size)) then throw .sharedOverflow
      return fields.flatMap fun low => Word.toLittle size (common ||| low) :
        Machine (List UInt8))
      = lift ((if ((chunksOf unique count bits).map ofBits).all (fun low => low < 2 ^ (8 * size)) then
            .ok (((chunksOf unique count bits).map ofBits).map fun low => common ||| low)
          else .error .sharedOverflow : Except Fault (List Nat)).map
        fun ws => ws.flatMap (Word.toLittle size)) := by
  by_cases hunique : unique = 0
  · -- fields of no bits are all zero
    have hall : (List.replicate count 0).all (fun low => decide (low < 2 ^ (8 * size))) = true := by
      rw [List.all_eq_true]
      intro low hlow
      rw [List.eq_of_mem_replicate hlow]
      exact decide_eq_true (Nat.two_pow_pos _)
    rw [if_pos hunique, hunique, fields_of_no_bits, if_pos hall, List.map_replicate, Nat.or_zero]
    show _ = lift (.ok ((List.replicate count common).flatMap (Word.toLittle size)))
    rw [List.flatMap_def, List.map_replicate]
    rfl
  · rw [if_neg hunique, bitFields, if_neg hunique, pure_bind]
    generalize (chunksOf unique count bits).map ofBits = fields
    by_cases hall : fields.all (fun low => decide (low < 2 ^ (8 * size))) = true
    · rw [if_neg (not_not_intro hall), if_pos hall]
      show _ = lift (.ok ((fields.map fun low => common ||| low).flatMap (Word.toLittle size)))
      rw [List.flatMap_map]
      rfl
    · rw [if_pos hall, if_neg hall]
      rfl

/-- No memory grants as many bytes as the last number of a word, so that it stands for a larger one
makes no difference. -/
theorem grants_lengthWithin (memory : Memory) (count size : Nat) :
    memory.grants (lengthWithin count size) = memory.grants (count * size) := by
  have hrefused : ∀ length, wordLimit - 1 ≤ length → memory.grants length = false := by
    intro length hlarge
    rw [← Bool.not_eq_true]
    intro hgranted
    have hlt := succ_lt_of_grants hgranted
    omega
  rcases Nat.le_total (count * size) (wordLimit - 1) with hle | hlarge
  · rw [lengthWithin, Nat.min_eq_left hle]
  · rw [lengthWithin, Nat.min_eq_right hlarge, hrefused _ hlarge, hrefused _ (Nat.le_refl _)]

/-- Decoding shared bits never stops the machine. -/
theorem decodeShared_eq (memory : Memory) (hsize : size ≤ 8) (count : Nat) (payload : List UInt8) :
    decodeShared memory size count payload = lift (Sigbits.decode size count payload memory) := by
  rw [decodeShared, Sigbits.decode, Sigbits.decodeWords, Nat.pow_eq]
  rcases hsupported : Sigbits.isSupported size with - | -
  · rfl
  rw [if_neg (by decide), if_pos rfl]
  dsimp only
  rw [mul_eq (two_mul_size_lt hsize), pure_bind]
  by_cases hshort : payload.length < 2 * size
  · -- no room for the two words
    rw [if_pos hshort, if_pos hshort]
    rfl
  have hfirst : range 0 size payload = pure (payload.take size) := range_eq (Nat.zero_le _) (by omega)
  have hsecond : range size (2 * size) payload = pure (slice size size payload) := by
    rw [range_eq (by omega) (by omega), Nat.two_mul, Nat.add_sub_cancel]
  rw [if_neg hshort, if_neg hshort, hfirst, pure_bind, hsecond, pure_bind]
  generalize Word.ofLittle (payload.take size) = shared
  generalize Word.ofLittle (slice size size payload) = common
  by_cases hwide : 8 * size < shared
  · -- more shared bits than there are
    rw [if_pos hwide, if_pos hwide]
    rfl
  rw [if_neg hwide, if_neg hwide, sub_eq (by omega), pure_bind, range_to_end (by omega), pure_bind]
  generalize payload.drop (2 * size) = body
  by_cases hstream : body.length < Sigbits.streamBytes count (8 * size - shared)
  · rw [if_pos hstream, if_pos hstream]
    rfl
  rw [if_neg hstream, if_neg hstream]
  rw [grants_lengthWithin]
  rcases memory.grants (count * size) with - | -
  · rfl
  · exact sharedElements_eq size count common (8 * size - shared) _

/-- Whether the numbers that a message states of a column are numbers of four bytes. -/
structure IsBounded (c : Column) : Prop where
  count_lt : c.count < 256 ^ 4
  length_lt : c.mode ≠ .deflate → c.payload.length < 256 ^ 4

/-- Decoding a column never stops the machine. -/
theorem decodeColumn_eq (h : IsBounded c) : decodeColumn z c = lift (c.decode z) := by
  obtain ⟨type, count, mode, payload⟩ := c
  obtain ⟨hcount, hlength⟩ := h
  cases mode with
  | raw => rfl
  | rle => exact bind_eq_lift (decodeRuns_eq type.size_le hcount (hlength Mode.noConfusion)) fun _ _ => rfl
  | sigbits => exact bind_eq_lift (decodeShared_eq z.memory type.size_le count payload) fun _ _ => rfl
  | deflate => exact bind_eq_lift rfl fun _ _ => rfl

end Machine

end PointPatch
