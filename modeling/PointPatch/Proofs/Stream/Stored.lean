/-
PointPatch/Proofs/Stream/Stored.lean

The codec of the library is lossless.

A stream that was written holds its bytes as they are, in blocks.  Reading is
followed bit by bit: a field of whole bytes gives their number
(`takeNumber_bytes`), a block puts its bytes to the output
(`copyStored_bytes`), and so do several (`blocks_storedBlocks`).  The bound on
the output is never compared with anything but the number of bytes, so the
result is the content, or as much of it as the bound allows (`pushAll_eq`).
-/
import PointPatch.Proofs.Bytes.Word
import PointPatch.Proofs.Outcome
import PointPatch.Stream.Deflate
import Mathlib.Algebra.BigOperators.Group.List.Basic

namespace PointPatch

/-! ### Output -/

namespace Output

/-- The output of some bytes and nothing else. -/
def of (bytes : List UInt8) : Output := ⟨bytes.reverse, bytes.length⟩

theorem content_of (bytes : List UInt8) : (of bytes).content = bytes := List.reverse_reverse bytes

theorem first?_of {limit : Nat} {bytes : List UInt8} (h : limit ≤ bytes.length) :
    (of bytes).first? limit = some (bytes.take limit) := by
  rw [first?, if_pos (by exact h), content_of]

theorem push_of {bound : Nat} {bytes : List UInt8} (h : bytes.length < bound) (b : UInt8) :
    (of bytes).push bound b = .ok (of (bytes ++ [b])) := by
  rw [push, if_neg (by exact Nat.not_le.2 h), of, of, List.reverse_append, List.length_append]
  rfl

/-- More bytes are put to the output as far as the bound allows; if it does not allow all of
them, it is filled up and halts. -/
theorem pushAll_eq {bound : Nat} {done : List UInt8} (hdone : done.length ≤ bound)
    (bytes : List UInt8) :
    (of done).pushAll bound bytes =
      if (done ++ bytes).length ≤ bound then .ok (of (done ++ bytes))
      else .error (.halted (of ((done ++ bytes).take bound))) := by
  induction bytes generalizing done with
  | nil =>
    rw [List.append_nil, if_pos hdone]
    rfl
  | cons b bytes ih =>
    rw [pushAll, List.foldlM_cons]
    rcases Nat.lt_or_eq_of_le hdone with hlt | heq
    · -- the bound allows another byte
      have hmore : (done ++ [b]).length ≤ bound := by
        rw [List.length_append]
        exact hlt
      have hrest := ih hmore
      rw [List.append_assoc, List.singleton_append] at hrest
      rw [push_of hlt, ok_bind]
      exact hrest
    · have hlong : ¬ (done ++ b :: bytes).length ≤ bound := by
        rw [List.length_append, List.length_cons]
        omega
      rw [push, if_pos (by exact Nat.le_of_eq heq.symm), if_neg hlong, List.take_left' heq]
      rfl

theorem pushAll_append (bound : Nat) (out : Output) (a b : List UInt8) :
    out.pushAll bound (a ++ b) = (out.pushAll bound a >>= fun out => out.pushAll bound b) :=
  List.foldlM_append

end Output

namespace Deflate

/-! ### Bits -/

theorem numberOfBits_append (a b : List Bool) :
    numberOfBits (a ++ b) = numberOfBits a + 2 ^ a.length * numberOfBits b := by
  induction a with
  | nil => simp [numberOfBits]
  | cons x a ih =>
    rw [List.cons_append, numberOfBits, ih, numberOfBits, List.length_cons, Nat.pow_succ',
      Nat.mul_assoc, Nat.mul_add, Nat.add_assoc]

theorem numberOfBits_testBit (n k : Nat) :
    numberOfBits ((List.range k).map n.testBit) = n % 2 ^ k := by
  induction k with
  | zero => simp [numberOfBits, Nat.mod_one]
  | succ k ih =>
    have hbit : numberOfBits ([k].map n.testBit) = n / 2 ^ k % 2 := by
      simp [numberOfBits, Nat.toNat_testBit]
    rw [List.range_succ, List.map_append, numberOfBits_append, ih, hbit, List.length_map,
      List.length_range, Nat.pow_succ, Nat.mod_mul]

@[simp] theorem length_bitsOfByte (b : UInt8) : (bitsOfByte b).length = 8 := by
  simp [bitsOfByte]

theorem length_flatMap_bitsOfByte (bytes : List UInt8) :
    (bytes.flatMap bitsOfByte).length = 8 * bytes.length := by
  induction bytes with
  | nil => rfl
  | cons b bytes ih =>
    rw [List.flatMap_cons, List.length_append, length_bitsOfByte, ih, List.length_cons]
    omega

theorem numberOfBits_flatMap (bytes : List UInt8) :
    numberOfBits (bytes.flatMap bitsOfByte) = Word.ofLittle bytes := by
  induction bytes with
  | nil => rfl
  | cons b bytes ih =>
    have hb : numberOfBits (bitsOfByte b) = b.toNat := by
      rw [bitsOfByte, numberOfBits_testBit]
      exact Nat.mod_eq_of_lt b.toNat_lt
    rw [List.flatMap_cons, numberOfBits_append, hb, ih, length_bitsOfByte]
    rfl

/-- A field of whole bytes is the number of these bytes. -/
theorem takeNumber_bytes {n : Nat} {bytes : List UInt8} (h : n = 8 * bytes.length)
    (rest : List Bool) :
    takeNumber n (bytes.flatMap bitsOfByte ++ rest) = .ok (Word.ofLittle bytes, rest) := by
  have hlen : (bytes.flatMap bitsOfByte).length = n := by rw [length_flatMap_bitsOfByte, h]
  rw [takeNumber, List.take_left' hlen, List.drop_left' hlen]
  simp only [hlen, Nat.lt_irrefl, if_false, numberOfBits_flatMap]

theorem alignToByte_bytes (bytes : List UInt8) :
    alignToByte (bytes.flatMap bitsOfByte) = bytes.flatMap bitsOfByte := by
  rw [alignToByte, length_flatMap_bitsOfByte, Nat.mul_mod_right, List.drop_zero]

/-! ### Blocks -/

variable {bound : Nat} {out : Output}

theorem copyStored_bytes (bytes : List UInt8) (rest : List Bool) :
    copyStored bound bytes.length (bytes.flatMap bitsOfByte ++ rest) out
      = (out.pushAll bound bytes >>= fun out => .ok (rest, out)) := by
  induction bytes generalizing out with
  | nil => rfl
  | cons b bytes ih =>
    have hbyte : takeNumber 8 ((b :: bytes).flatMap bitsOfByte ++ rest)
        = .ok (b.toNat, bytes.flatMap bitsOfByte ++ rest) := by
      have hb := takeNumber_bytes (show 8 = 8 * [b].length from rfl)
        (bytes.flatMap bitsOfByte ++ rest)
      rw [List.flatMap_cons, List.append_assoc]
      simpa [Word.ofLittle] using hb
    rw [List.length_cons, copyStored, hbyte, Output.pushAll, List.foldlM_cons]
    simp only [Output.expect, ok_bind, UInt8.ofNat_toNat]
    cases out.push bound b with
    | error stop => rfl
    | ok out =>
      rw [ok_bind, ok_bind, ih]
      rfl

/-- What a block holds after its first three bits: padding, two length fields, the bytes. -/
theorem storedBlock_bytes {bytes : List UInt8} (h : bytes.length ≤ longestBlock)
    (padding : List Bool) (hpadding : padding.length = 5) (rest : List UInt8) :
    storedBlock bound
        (padding ++ (Word.toLittle 2 bytes.length ++ Word.toLittle 2 (65535 - bytes.length)
          ++ bytes ++ rest).flatMap bitsOfByte) out
      = (out.pushAll bound bytes >>= fun out => .ok (rest.flatMap bitsOfByte, out)) := by
  have hword : longestBlock < 256 ^ 2 := by decide
  have halign : alignToByte (padding ++ (Word.toLittle 2 bytes.length
      ++ Word.toLittle 2 (65535 - bytes.length) ++ bytes ++ rest).flatMap bitsOfByte)
      = (Word.toLittle 2 bytes.length).flatMap bitsOfByte
        ++ ((Word.toLittle 2 (65535 - bytes.length)).flatMap bitsOfByte
          ++ (bytes.flatMap bitsOfByte ++ rest.flatMap bitsOfByte)) := by
    have hmod : (padding ++ (Word.toLittle 2 bytes.length
        ++ Word.toLittle 2 (65535 - bytes.length) ++ bytes ++ rest).flatMap bitsOfByte).length % 8
        = 5 := by
      rw [List.length_append, length_flatMap_bitsOfByte, hpadding]
      omega
    rw [alignToByte, hmod, List.drop_left' hpadding]
    simp only [List.flatMap_append, List.append_assoc]
  have hlength : Word.ofLittle (Word.toLittle 2 bytes.length) = bytes.length :=
    Word.ofLittle_toLittle (by omega)
  have hcomplement : Word.ofLittle (Word.toLittle 2 (65535 - bytes.length)) = 65535 - bytes.length :=
    Word.ofLittle_toLittle (by omega)
  rw [storedBlock, halign, takeNumber_bytes (by rw [Word.length_toLittle])]
  simp only [Output.expect, ok_bind]
  rw [takeNumber_bytes (by rw [Word.length_toLittle])]
  simp only [hlength, hcomplement, ok_bind]
  rw [if_neg (by rw [longestBlock] at h; omega)]
  exact copyStored_bytes bytes _

/-- The first byte of a written block holds the flag of the last block, the kind, and five bits
of padding. -/
theorem takeNumber_blockStart (isLast : Bool) (rest : List Bool) :
    takeNumber 1 (bitsOfByte (if isLast then 1 else 0) ++ rest)
      = .ok (isLast.toNat, [false, false, false, false, false, false, false] ++ rest) := by
  cases isLast <;> rfl

/-- A written block puts its bytes to the output, and reading goes on unless it is the last
one. -/
theorem blocks_stored {bytes : List UInt8} (h : bytes.length ≤ longestBlock) (isLast : Bool)
    (rest : List UInt8) (fuel : Nat) :
    blocks bound (fuel + 1)
        ((storedHeader isLast bytes.length ++ bytes ++ rest).flatMap bitsOfByte) out
      = (out.pushAll bound bytes >>= fun out =>
          if isLast then .ok (rest.flatMap bitsOfByte, out)
          else blocks bound fuel (rest.flatMap bitsOfByte) out) := by
  have hblock := @storedBlock_bytes bound out bytes h [false, false, false, false, false] rfl rest
  have hstart : (storedHeader isLast bytes.length ++ bytes ++ rest).flatMap bitsOfByte
      = bitsOfByte (if isLast then 1 else 0)
        ++ (Word.toLittle 2 bytes.length ++ Word.toLittle 2 (65535 - bytes.length)
          ++ bytes ++ rest).flatMap bitsOfByte := rfl
  have hkind : ∀ rest : List Bool,
      takeNumber 2 ([false, false, false, false, false, false, false] ++ rest)
        = .ok (0, [false, false, false, false, false] ++ rest) := fun rest => rfl
  rw [blocks, hstart, takeNumber_blockStart]
  simp only [Output.expect, ok_bind]
  rw [hkind]
  simp only [ok_bind, if_true, hblock]
  cases out.pushAll bound bytes with
  | error stop => rfl
  | ok out => cases isLast <;> rfl

/-- Written blocks put their bytes to the output, one block after another. -/
theorem blocks_storedBlocks {full : Nat} {bytes : List UInt8}
    (hlong : full * longestBlock ≤ bytes.length)
    (hshort : bytes.length ≤ (full + 1) * longestBlock) (rest : List UInt8) {fuel : Nat}
    (hfuel : full < fuel) :
    blocks bound fuel ((storedBlocks full bytes ++ rest).flatMap bitsOfByte) out
      = (out.pushAll bound bytes >>= fun out => .ok (rest.flatMap bitsOfByte, out)) := by
  induction full generalizing fuel bytes out with
  | zero =>
    obtain ⟨fuel, rfl⟩ := Nat.exists_eq_succ_of_ne_zero (Nat.ne_of_gt hfuel)
    exact blocks_stored (by omega) true rest fuel
  | succ full ih =>
    obtain ⟨fuel, rfl⟩ := Nat.exists_eq_succ_of_ne_zero (Nat.ne_of_gt (Nat.lt_of_le_of_lt
      (Nat.zero_le _) hfuel))
    rw [Nat.succ_mul] at hlong hshort
    have htake : (bytes.take longestBlock).length = longestBlock := by
      rw [List.length_take, Nat.min_eq_left]
      omega
    have hdrop : (bytes.drop longestBlock).length = bytes.length - longestBlock := List.length_drop
    have hblock := @blocks_stored bound out _ (Nat.le_of_eq htake) false
      (storedBlocks full (bytes.drop longestBlock) ++ rest) fuel
    -- the blocks behind the first one put down the bytes that it does not hold
    have htail : ∀ out : Output, blocks bound fuel
        ((storedBlocks full (bytes.drop longestBlock) ++ rest).flatMap bitsOfByte) out
        = (out.pushAll bound (bytes.drop longestBlock)
            >>= fun out => .ok (rest.flatMap bitsOfByte, out)) :=
      fun out => ih (by omega) (by omega) (by omega)
    have hsplit : out.pushAll bound bytes = (out.pushAll bound (bytes.take longestBlock)
        >>= fun out => out.pushAll bound (bytes.drop longestBlock)) := by
      rw [← Output.pushAll_append, List.take_append_drop]
    rw [htake, ← List.append_assoc] at hblock
    rw [storedBlocks, hsplit, hblock]
    cases out.pushAll bound (bytes.take longestBlock) with
    | error stop => rfl
    | ok out => exact htail out

/-! ### Streams -/

theorem checksum_lt (bytes : List UInt8) : checksum bytes < 256 ^ 4 := by
  have hsums : ∀ (s : Nat × Nat), s.1 < 65521 → s.2 < 65521 →
      (bytes.foldl (fun (s : Nat × Nat) b =>
        ((s.1 + b.toNat) % 65521, (s.2 + (s.1 + b.toNat) % 65521) % 65521)) s).1 < 65521
      ∧ (bytes.foldl (fun (s : Nat × Nat) b =>
        ((s.1 + b.toNat) % 65521, (s.2 + (s.1 + b.toNat) % 65521) % 65521)) s).2 < 65521 := by
    induction bytes with
    | nil => exact fun s h₁ h₂ => ⟨h₁, h₂⟩
    | cons b bytes ih =>
      exact fun s _ _ => ih _ (Nat.mod_lt _ (by decide)) (Nat.mod_lt _ (by decide))
  obtain ⟨h₁, h₂⟩ := hsums (1, 0) (by decide) (by decide)
  rw [checksum]
  simp only
  omega

theorem le_length_storedBlocks (full : Nat) (bytes : List UInt8) :
    full ≤ (storedBlocks full bytes).length := by
  induction full generalizing bytes with
  | zero => exact Nat.zero_le _
  | succ full ih =>
    have := ih (bytes.drop longestBlock)
    rw [storedBlocks, storedHeader, List.length_append, List.length_append, List.length_append,
      List.length_cons]
    omega

/-- Behind the two bytes that a stream opens with come the blocks and the checksum. -/
theorem run_of_isHeader {method flags : UInt8} (h : isHeader method flags = true)
    (rest : List UInt8) :
    run bound (method :: flags :: rest)
      = (blocks bound ((rest.flatMap bitsOfByte).length + 1) (rest.flatMap bitsOfByte) .empty
        >>= fun x => x.2.expect (takeNumber 32 (alignToByte x.1)) >>= fun y =>
          if Word.ofBytes .big (Word.toLittle 4 y.1) ≠ checksum x.2.content then
            throw Stop.corrupt >>= fun _ : Unit => pure x.2
          else pure x.2) := by
  rw [run, h]
  rfl

/-- All blocks of a written stream put all bytes to the output, as far as the bound allows. -/
theorem blocks_store (bytes trailer : List UInt8) {fuel : Nat}
    (hfuel : (storedBlocks ((bytes.length - 1) / longestBlock) bytes).length < fuel) :
    blocks bound fuel ((storedBlocks ((bytes.length - 1) / longestBlock) bytes
        ++ trailer).flatMap bitsOfByte) .empty
      = if bytes.length ≤ bound then .ok (trailer.flatMap bitsOfByte, Output.of bytes)
        else .error (.halted (Output.of (bytes.take bound))) := by
  have hlong : (bytes.length - 1) / longestBlock * longestBlock ≤ bytes.length :=
    Nat.le_trans (Nat.div_mul_le_self _ _) (Nat.sub_le _ _)
  have hshort : bytes.length ≤ ((bytes.length - 1) / longestBlock + 1) * longestBlock := by
    have hlt : bytes.length - 1
        < (bytes.length - 1) / longestBlock * longestBlock + longestBlock :=
      Nat.lt_div_mul_add (by decide)
    rw [Nat.succ_mul]
    omega
  have hpush : Output.empty.pushAll bound bytes = _ :=
    @Output.pushAll_eq bound [] (Nat.zero_le bound) bytes
  rw [List.nil_append] at hpush
  rw [blocks_storedBlocks hlong hshort trailer
    (Nat.lt_of_le_of_lt (le_length_storedBlocks _ bytes) hfuel), hpush]
  split
  · rfl
  · rfl

/-- The checksum that stands behind the blocks is read as it was written. -/
theorem takeNumber_trailer {n : Nat} (h : n < 256 ^ 4) :
    ∃ m, takeNumber 32 (alignToByte ((Word.toBytes .big 4 n).flatMap bitsOfByte)) = .ok (m, [])
      ∧ Word.ofBytes .big (Word.toLittle 4 m) = n := by
  refine ⟨Word.ofLittle (Word.toBytes .big 4 n), ?_, ?_⟩
  · have hread : takeNumber 32 ((Word.toBytes .big 4 n).flatMap bitsOfByte ++ []) = _ :=
      takeNumber_bytes (by rw [Word.length_toBytes]) []
    rw [alignToByte_bytes]
    rwa [List.append_nil] at hread
  · have hback := Word.toLittle_ofLittle (Word.toBytes .big 4 n)
    rw [Word.length_toBytes] at hback
    rw [hback]
    exact Word.ofBytes_toBytes .big h

/-- A written stream is unpacked to its content, or to as much of it as the bound allows. -/
theorem run_store (bytes : List UInt8) :
    run bound (store bytes) =
      if bytes.length ≤ bound then .ok (Output.of bytes)
      else .error (.halted (Output.of (bytes.take bound))) := by
  obtain ⟨m, hread, hstated⟩ := takeNumber_trailer (checksum_lt bytes)
  have hstream : store bytes = 0x78 :: 0x01 ::
      (storedBlocks ((bytes.length - 1) / longestBlock) bytes
        ++ Word.toBytes .big 4 (checksum bytes)) := rfl
  rw [hstream, run_of_isHeader (by decide), blocks_store bytes _ (by
    rw [length_flatMap_bitsOfByte, List.length_append]
    omega)]
  split
  · rw [ok_bind]
    dsimp only
    rw [hread, Output.expect, ok_bind, Output.content_of, if_neg (not_not_intro hstated)]
    rfl
  · rfl

/-- Whole steps, as many as are begun, lead at least as far. -/
theorem le_steps {step : Nat} (h : 0 < step) (n : Nat) : n ≤ (n + step - 1) / step * step := by
  have := Nat.lt_div_mul_add (a := n + step - 1) h
  omega

/-- If a stream as a whole is unpacked as far as a bound allows, then as much comes out as is
asked for.  It is not found corrupt, so fewer pieces of it are never looked at. -/
theorem unpackStream_eq {limit : Nat} {run : List UInt8 → Except Stop Output}
    {stream bytes : List UInt8} (hstream : stream ≠ []) (hbound : limit ≤ bound)
    (hrun : run stream = if bytes.length ≤ bound then .ok (Output.of bytes)
      else .error (.halted (Output.of (bytes.take bound)))) :
    unpackStream piece limit run stream = some (bytes.take limit) := by
  rw [unpackStream]
  by_cases hlimit : limit = 0
  · rw [if_pos hlimit, hlimit, List.take_zero]
  have hpieces := @le_steps piece (by decide) stream.length
  obtain ⟨n, hn⟩ : ∃ n, (stream.length + piece - 1) / piece = n + 1 := by
    refine Nat.exists_eq_succ_of_ne_zero ?_
    intro hzero
    rw [hzero, Nat.zero_mul] at hpieces
    exact hstream (List.length_eq_zero_iff.1 (Nat.le_zero.1 hpieces))
  rw [hn] at hpieces ⊢
  rw [if_neg hlimit, unpackPieces, List.take_of_length_le hpieces, hrun]
  by_cases hall : bytes.length ≤ bound
  · rw [if_pos hall]
    dsimp only
    rw [if_pos hpieces, Output.content_of]
  · rw [if_neg hall]
    dsimp only
    have htake : limit ≤ (bytes.take bound).length := by
      rw [List.length_take, Nat.min_eq_left (by omega)]
      exact hbound
    rw [Output.first?_of htake, List.take_take, Nat.min_eq_left hbound]

/-- Of a stream that was written, as much of the content comes out as is asked for. -/
theorem inflate_store (limit : Nat) (bytes : List UInt8) :
    inflate limit (store bytes) = some (bytes.take limit) := by
  have hne : store bytes ≠ [] := by
    rw [store]
    simp
  exact unpackStream_eq hne (le_steps (by decide) limit) (run_store bytes)

/-- The codec of the library gives back what it was handed. -/
theorem codec_lossless : codec.Lossless := fun _ bytes limit => inflate_store limit bytes

end Deflate

end PointPatch
