/-
PointPatch/Proofs/Wire/Cursor.lean

What has been read off a message.

A reader succeeds exactly if the message goes on with what the writer of the
same thing puts down, and it stops right behind it.  So these statements serve
in both directions: what was written can be read, whatever follows, and what
can be read was written so.
-/
import PointPatch.Wire.Opening
import PointPatch.Proofs.Bytes.Word
import PointPatch.Proofs.Outcome

namespace PointPatch

namespace Cursor

variable {c c' : Cursor}

theorem byte_eq_ok_iff {b : UInt8} :
    c.byte = .ok (b, c') ↔ c.rest = b :: c'.rest ∧ c'.position = c.position + 1 := by
  obtain ⟨position, rest⟩ := c
  obtain ⟨position', rest'⟩ := c'
  cases rest with
  | nil => simp [byte]
  | cons a rest =>
    simp only [byte, advance, Except.ok.injEq, Prod.mk.injEq, Cursor.mk.injEq, List.cons.injEq,
      List.drop_succ_cons, List.drop_zero]
    constructor
    · rintro ⟨rfl, rfl, rfl⟩
      exact ⟨⟨rfl, rfl⟩, rfl⟩
    · rintro ⟨⟨rfl, rfl⟩, rfl⟩
      exact ⟨rfl, rfl, rfl⟩

theorem word_eq_ok_iff {order : ByteOrder} {n : Nat} :
    c.word order = .ok (n, c') ↔
      n < 256 ^ 4 ∧ c.rest = Word.toBytes order 4 n ++ c'.rest
        ∧ c'.position = c.position + 4 := by
  obtain ⟨position, rest⟩ := c
  obtain ⟨position', rest'⟩ := c'
  rw [word]
  split
  · rename_i hshort
    constructor
    · intro h
      cases h
    rintro ⟨-, rfl, -⟩
    simp only [List.length_append, Word.length_toBytes] at hshort
    omega
  · rename_i hlong
    simp only [advance, Except.ok.injEq, Prod.mk.injEq, Cursor.mk.injEq]
    constructor
    · rintro ⟨rfl, rfl, rfl⟩
      have htake : (rest.take 4).length = 4 := by
        rw [List.length_take]
        simp only at hlong
        omega
      have hlt := Word.ofBytes_lt order (rest.take 4)
      have hback := Word.toBytes_ofBytes order (rest.take 4)
      rw [htake] at hlt hback
      exact ⟨hlt, by rw [hback, List.take_append_drop], rfl⟩
    · rintro ⟨hn, rfl, rfl⟩
      have hlen := Word.length_toBytes order 4 n
      refine ⟨?_, rfl, List.drop_left' hlen⟩
      rw [List.take_left' hlen, Word.ofBytes_toBytes order hn]

theorem bytes_eq_ok_iff {n : Nat} {bs : List UInt8} :
    c.bytes n = .ok (bs, c') ↔
      bs.length = n ∧ c.rest = bs ++ c'.rest ∧ c'.position = c.position + n := by
  obtain ⟨position, rest⟩ := c
  obtain ⟨position', rest'⟩ := c'
  rw [bytes]
  split
  · rename_i hshort
    constructor
    · intro h
      cases h
    rintro ⟨hn, rfl, -⟩
    simp only [List.length_append] at hshort
    omega
  · rename_i hlong
    simp only [advance, Except.ok.injEq, Prod.mk.injEq, Cursor.mk.injEq]
    constructor
    · rintro ⟨rfl, rfl, rfl⟩
      refine ⟨?_, (List.take_append_drop n rest).symm, rfl⟩
      rw [List.length_take]
      simp only at hlong
      omega
    · rintro ⟨hn, rfl, rfl⟩
      exact ⟨List.take_left' hn, rfl, List.drop_left' hn⟩

end Cursor

/-! ### Openings -/

theorem ByteOrder.ofFlag_eq_ok_iff {flag : UInt8} {order : ByteOrder} :
    ByteOrder.ofFlag flag = .ok order ↔ flag = order.flag := by
  rw [← ByteOrder.ofFlag?_eq_some_iff, ByteOrder.ofFlag]
  cases ByteOrder.ofFlag? flag <;> simp

theorem Representation.ofTag_eq_ok_iff {tag : Nat} {form : Representation} :
    Representation.ofTag tag = .ok form ↔ tag = form.tag := by
  rw [← Representation.ofTag?_eq_some_iff, Representation.ofTag]
  cases Representation.ofTag? tag <;> simp

theorem Mode.ofTag_eq_ok_iff {tag : UInt8} {mode : Mode} :
    Mode.ofTag tag = .ok mode ↔ tag = mode.tag := by
  rw [← Mode.ofTag?_eq_some_iff, Mode.ofTag]
  cases Mode.ofTag? tag <;> simp

namespace Opening

@[simp] theorem length_shortBytes (order : ByteOrder) (pcid : UInt32) :
    (shortBytes order pcid).length = 5 := by
  simp [shortBytes]

@[simp] theorem length_bytes (o : Opening) : o.bytes.length = size := by
  simp [bytes, size]

/-- What all messages open with is read exactly if it is there. -/
theorem readShort_eq_ok_iff {c c' : Cursor} {order : ByteOrder} {pcid : UInt32} :
    readShort c = .ok (order, pcid, c') ↔
      c.rest = shortBytes order pcid ++ c'.rest ∧ c'.position = c.position + 5 := by
  rw [readShort]
  constructor
  · intro h
    obtain ⟨⟨flag, c₁⟩, h₁, h⟩ := bind_eq_ok_iff.1 h
    obtain ⟨order', h₂, h⟩ := bind_eq_ok_iff.1 h
    obtain ⟨⟨id, c₂⟩, h₃, h⟩ := bind_eq_ok_iff.1 h
    cases h
    obtain ⟨hrest₁, hpos₁⟩ := Cursor.byte_eq_ok_iff.1 h₁
    obtain ⟨hid, hrest₂, hpos₂⟩ := Cursor.word_eq_ok_iff.1 h₃
    obtain rfl := ByteOrder.ofFlag_eq_ok_iff.1 h₂
    refine ⟨?_, by omega⟩
    rw [hrest₁, hrest₂, shortBytes, UInt32.toNat_ofNat_of_lt' hid, List.cons_append]
  · rintro ⟨hrest, hpos⟩
    refine bind_eq_ok_iff.2 ⟨(order.flag, ⟨c.position + 1, Word.toBytes order 4 pcid.toNat ++ c'.rest⟩),
      Cursor.byte_eq_ok_iff.2 ⟨hrest, rfl⟩, ?_⟩
    refine bind_eq_ok_iff.2 ⟨order, ByteOrder.ofFlag_eq_ok_iff.2 rfl, ?_⟩
    refine bind_eq_ok_iff.2 ⟨(pcid.toNat, c'), Cursor.word_eq_ok_iff.2 ⟨pcid.toNat_lt, rfl, ?_⟩, ?_⟩
    · simp only
      omega
    · simp [pure, Except.pure]

/-- The opening of a patch is read exactly if it is there. -/
theorem read_eq_ok_iff {message : List UInt8} {o : Opening} {c : Cursor} :
    read message = .ok (o, c) ↔ message = o.bytes ++ c.rest ∧ c.position = size := by
  rw [read]
  constructor
  · intro h
    obtain ⟨-, h⟩ := check_eq_ok_iff.1 h
    obtain ⟨-, h⟩ := check_eq_ok_iff.1 h
    obtain ⟨⟨order, pcid, c₁⟩, h₁, h⟩ := bind_eq_ok_iff.1 h
    obtain ⟨⟨tag, c₂⟩, h₂, h⟩ := bind_eq_ok_iff.1 h
    obtain ⟨form, h₃, h⟩ := bind_eq_ok_iff.1 h
    cases h
    obtain ⟨hrest₁, hpos₁⟩ := readShort_eq_ok_iff.1 h₁
    obtain ⟨-, hrest₂, hpos₂⟩ := Cursor.word_eq_ok_iff.1 h₂
    obtain rfl := Representation.ofTag_eq_ok_iff.1 h₃
    refine ⟨?_, by rw [hpos₂, hpos₁]; rfl⟩
    -- the parts that were read off, put together again
    show message = _
    rw [bytes, List.append_assoc, ← hrest₂, ← hrest₁]
    rfl
  · rintro ⟨rfl, hpos⟩
    have hlen : (o.bytes ++ c.rest).length = size + c.rest.length := by
      rw [List.length_append, length_bytes]
    refine check_eq_ok_iff.2 ⟨?_, check_eq_ok_iff.2 ⟨by omega, ?_⟩⟩
    · -- a message with an opening is not empty
      intro hnil
      rw [hnil, size, List.length_nil] at hlen
      omega
    · have htag : o.form.tag < 256 ^ 4 := Nat.lt_trans o.form.tag_lt (by decide)
      refine bind_eq_ok_iff.2 ⟨(o.order, o.pcid, ⟨5, Word.toBytes o.order 4 o.form.tag ++ c.rest⟩),
        readShort_eq_ok_iff.2 ⟨List.append_assoc _ _ _, rfl⟩, ?_⟩
      refine bind_eq_ok_iff.2 ⟨(o.form.tag, c),
        Cursor.word_eq_ok_iff.2 ⟨htag, rfl, hpos⟩, ?_⟩
      exact bind_eq_ok_iff.2 ⟨o.form, Representation.ofTag_eq_ok_iff.2 rfl, rfl⟩

/-- Bytes begin with one opening at most. -/
theorem bytes_append_inj {o o' : Opening} {rest rest' : List UInt8}
    (h : o.bytes ++ rest = o'.bytes ++ rest') : o = o' ∧ rest = rest' := by
  have hread : read (o.bytes ++ rest) = .ok (o, ⟨size, rest⟩) := read_eq_ok_iff.2 ⟨rfl, rfl⟩
  have hread' : read (o.bytes ++ rest) = .ok (o', ⟨size, rest'⟩) := read_eq_ok_iff.2 ⟨h, rfl⟩
  cases hread.symm.trans hread'
  exact ⟨rfl, rfl⟩

/-- The id of the schema is the one that the message opens with. -/
theorem schemaId_eq_ok_iff {message : List UInt8} {pcid : UInt32} :
    schemaId message = .ok pcid ↔ ∃ order rest, message = shortBytes order pcid ++ rest := by
  rw [schemaId]
  constructor
  · intro h
    obtain ⟨-, h⟩ := check_eq_ok_iff.1 h
    obtain ⟨⟨order, pcid', c⟩, h₁, h⟩ := bind_eq_ok_iff.1 h
    cases h
    exact ⟨order, c.rest, (readShort_eq_ok_iff.1 h₁).1⟩
  · rintro ⟨order, rest, rfl⟩
    refine check_eq_ok_iff.2 ⟨?_, ?_⟩
    · rw [List.length_append, length_shortBytes]
      omega
    · exact bind_eq_ok_iff.2 ⟨(order, pcid, ⟨5, rest⟩), readShort_eq_ok_iff.2 ⟨rfl, rfl⟩, rfl⟩

end Opening

end PointPatch
