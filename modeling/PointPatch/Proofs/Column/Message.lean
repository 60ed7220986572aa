/-
PointPatch/Proofs/Column/Message.lean

Columns as they stand in a message.

`entry order c` is what a message of the given byte order says of a column `c`
that has been turned around already.  The reader succeeds exactly on an entry
whose column can be turned back (`read_eq_ok_iff`), and the writer puts down
exactly such an entry (`write_eq_ok_iff`).  Reading the columns of several
dimensions is reading one entry after another (`readColumns_eq_ok_iff`).
-/
import PointPatch.Patch.Columns
import PointPatch.Proofs.Column.ByteOrder
import PointPatch.Proofs.Wire.Cursor

namespace PointPatch

namespace Column

variable {z : ColumnCodec} {level : Nat} {order : ByteOrder} {type : Interpretation}
variable {count : Nat} {c : Column} {bytes : List UInt8}

/-! ### Entries -/

/-- What a message says of a column whose words have its byte order. -/
def entry (order : ByteOrder) (c : Column) : List UInt8 :=
  c.mode.tag :: (Word.toBytes order 4 c.payload.length ++ c.payload)

/-- Whether a message can say of a column in a place of the given type that it is this one: the
length field reaches, and raw values have the length that they must have. -/
structure IsEntry (type : Interpretation) (count : Nat) (c : Column) : Prop where
  type_eq : c.type = type
  count_eq : c.count = count
  length_lt : c.payload.length < 256 ^ 4
  length_raw : c.mode = .raw → c.payload.length = count * type.size

theorem IsEntry.isWhole (h : c.IsEntry type count) : c.IsWhole := by
  intro hraw
  rw [h.count_eq, h.type_eq]
  exact h.length_raw hraw

theorem length_entry (order : ByteOrder) (c : Column) : (c.entry order).length = c.wireSize := by
  rw [entry, List.length_cons, List.length_append, Word.length_toBytes, wireSize]
  omega

theorem write_eq_ok_iff {message : List UInt8} :
    c.write z level order = .ok message ↔
      ∃ c', c.toOrder z level order = .ok c' ∧ message = c'.entry order := by
  rw [write, bind_eq_ok_iff]
  constructor
  · rintro ⟨c', hturn, h⟩
    cases h
    exact ⟨c', hturn, rfl⟩
  · rintro ⟨c', hturn, rfl⟩
    exact ⟨c', hturn, rfl⟩

/-- A column that has been turned around stands in a message as an entry, if the length field
reaches. -/
theorem isEntry_of_toOrder {w : Column} (hturn : c.toOrder z level order = .ok w)
    (hwhole : c.IsWhole) (hlt : w.payload.length < 256 ^ 4) : w.IsEntry c.type c.count where
  type_eq := type_of_toOrder hturn
  count_eq := count_of_toOrder hturn
  length_lt := hlt
  length_raw := by
    rw [← count_of_toOrder hturn, ← type_of_toOrder hturn]
    exact hwhole.toOrder hturn

/-- A column is read exactly if there is an entry of a column that turns into it. -/
theorem read_eq_ok_iff {cursor cursor' : Cursor} :
    read z level order type count cursor = .ok (c, cursor') ↔
      ∃ w : Column, w.IsEntry type count ∧ w.toOrder z level order = .ok c
        ∧ cursor.rest = w.entry order ++ cursor'.rest
        ∧ cursor'.position = cursor.position + w.wireSize := by
  rw [read]
  constructor
  · -- what has been read off says an entry
    intro h
    obtain ⟨⟨tag, c₁⟩, h₁, h⟩ := bind_eq_ok_iff.1 h
    obtain ⟨mode, h₂, h⟩ := bind_eq_ok_iff.1 h
    obtain ⟨⟨length, c₂⟩, h₃, h⟩ := bind_eq_ok_iff.1 h
    obtain ⟨⟨payload, c₃⟩, h₄, h⟩ := bind_eq_ok_iff.1 h
    obtain ⟨hraw, h⟩ := check_eq_ok_iff.1 h
    obtain ⟨column, hturn, h⟩ := bind_eq_ok_iff.1 h
    cases h
    obtain ⟨hrest₁, hpos₁⟩ := Cursor.byte_eq_ok_iff.1 h₁
    obtain rfl := Mode.ofTag_eq_ok_iff.1 h₂
    obtain ⟨hlt, hrest₂, hpos₂⟩ := Cursor.word_eq_ok_iff.1 h₃
    obtain ⟨rfl, hrest₃, hpos₃⟩ := Cursor.bytes_eq_ok_iff.1 h₄
    refine ⟨⟨type, count, mode, payload⟩, ⟨rfl, rfl, hlt, ?_⟩, hturn, ?_, ?_⟩
    · intro hmode
      by_contra hlength
      exact hraw ⟨hmode, hlength⟩
    · rw [hrest₁, hrest₂, hrest₃, entry, List.cons_append, List.append_assoc]
    · rw [hpos₃, hpos₂, hpos₁]
      show cursor.position + 1 + 4 + payload.length = cursor.position + (1 + 4 + payload.length)
      omega
  · -- an entry is read off piece by piece
    rintro ⟨⟨type', count', mode, payload⟩, ⟨rfl, rfl, hlt, hraw⟩, hturn, hrest, hpos⟩
    let c₁ : Cursor := ⟨cursor.position + 1,
      Word.toBytes order 4 payload.length ++ (payload ++ cursor'.rest)⟩
    let c₂ : Cursor := ⟨cursor.position + 1 + 4, payload ++ cursor'.rest⟩
    have h₁ : cursor.byte = .ok (mode.tag, c₁) := by
      refine Cursor.byte_eq_ok_iff.2 ⟨?_, rfl⟩
      rw [hrest, entry, List.cons_append, List.append_assoc]
    have h₂ : c₁.word order = .ok (payload.length, c₂) := Cursor.word_eq_ok_iff.2 ⟨hlt, rfl, rfl⟩
    have h₃ : c₂.bytes payload.length = .ok (payload, cursor') := by
      refine Cursor.bytes_eq_ok_iff.2 ⟨rfl, rfl, ?_⟩
      rw [hpos]
      show cursor.position + (1 + 4 + payload.length) = cursor.position + 1 + 4 + payload.length
      omega
    refine bind_eq_ok_iff.2 ⟨_, h₁, bind_eq_ok_iff.2 ⟨mode, Mode.ofTag_eq_ok_iff.2 rfl, ?_⟩⟩
    refine bind_eq_ok_iff.2 ⟨_, h₂, bind_eq_ok_iff.2 ⟨_, h₃, check_eq_ok_iff.2 ⟨?_, ?_⟩⟩⟩
    · rintro ⟨hmode, hlength⟩
      exact hlength (hraw hmode)
    · exact bind_eq_ok_iff.2 ⟨c, hturn, rfl⟩

end Column

/-! ### The columns of a patch -/

namespace ColumnPatch

variable {e : Engine} {order : ByteOrder} {count : Nat} {cs : List Column}

/-- The entries of some columns, one after another. -/
def entries (order : ByteOrder) (ws : List Column) : List UInt8 := ws.flatMap (Column.entry order)

theorem length_entries (order : ByteOrder) (ws : List Column) :
    (entries order ws).length = (ws.map Column.wireSize).sum := by
  induction ws with
  | nil => rfl
  | cons w ws ih =>
    rw [entries, List.flatMap_cons, List.length_append, Column.length_entry, List.map_cons,
      List.sum_cons, ← ih]
    rfl

/-- Columns are read exactly if there are entries, one for each dimension, of columns that turn
into them. -/
theorem readColumns_eq_ok_iff {ds : List Dimension} {cursor cursor' : Cursor} :
    readColumns e order count ds cursor = .ok (cs, cursor') ↔
      ∃ ws : List Column, ds.Forall₂ (fun d w => w.IsEntry d.type count) ws
        ∧ ws.Forall₂ (fun w c => w.toOrder e.deflate e.config.deflateLevel order = .ok c) cs
        ∧ cursor.rest = entries order ws ++ cursor'.rest
        ∧ cursor'.position = cursor.position + (ws.map Column.wireSize).sum := by
  induction ds generalizing cursor cs with
  | nil =>
    rw [readColumns]
    constructor
    · intro h
      cases h
      exact ⟨[], .nil, .nil, rfl, rfl⟩
    · rintro ⟨ws, _ | _, _ | _, hrest, hpos⟩
      obtain ⟨position, rest⟩ := cursor
      obtain ⟨position', rest'⟩ := cursor'
      obtain rfl : rest = rest' := hrest
      obtain rfl : position' = position := hpos
      rfl
  | cons d ds ih =>
    rw [readColumns]
    constructor
    · intro h
      obtain ⟨⟨c, cursor₁⟩, h₁, h⟩ := bind_eq_ok_iff.1 h
      obtain ⟨⟨cs', cursor₂⟩, h₂, h⟩ := bind_eq_ok_iff.1 h
      cases h
      obtain ⟨w, hentry, hturn, hrest, hpos⟩ := Column.read_eq_ok_iff.1 h₁
      obtain ⟨ws, hentries, hturns, hrest', hpos'⟩ := ih.1 h₂
      refine ⟨w :: ws, .cons hentry hentries, .cons hturn hturns, ?_, ?_⟩
      · rw [hrest, hrest', entries, entries, List.flatMap_cons, List.append_assoc]
      · rw [hpos', hpos, List.map_cons, List.sum_cons, Nat.add_assoc]
    · rintro ⟨ws, hentries, hturns, hrest, hpos⟩
      cases hentries with
      | @cons _ w _ ws hentry hentries =>
        cases hturns with
        | @cons _ c _ cs hturn hturns =>
          -- the second reader starts behind the first entry
          let cursor₁ : Cursor := ⟨cursor.position + w.wireSize, entries order ws ++ cursor'.rest⟩
          have h₁ : Column.read e.deflate e.config.deflateLevel order d.type count cursor
              = .ok (c, cursor₁) := by
            refine Column.read_eq_ok_iff.2 ⟨w, hentry, hturn, ?_, rfl⟩
            rw [hrest, entries, List.flatMap_cons, List.append_assoc]
            rfl
          have h₂ : readColumns e order count ds cursor₁ = .ok (cs, cursor') := by
            refine ih.2 ⟨ws, hentries, hturns, rfl, ?_⟩
            rw [hpos, List.map_cons, List.sum_cons, Nat.add_assoc]
          exact bind_eq_ok_iff.2 ⟨_, h₁, bind_eq_ok_iff.2 ⟨_, h₂, rfl⟩⟩

/-- The part of a message after the opening holds a patch exactly if it is the number of points
and an entry for each dimension, and every slot of the schema is filled. -/
theorem ofPayload_eq_ok_iff {schema : Schema} {cursor : Cursor} {p : ColumnPatch} :
    ofPayload e schema order cursor = .ok p ↔
      ∃ count ws cs, count < 256 ^ 4
        ∧ schema.dimensions.Forall₂ (fun d w => w.IsEntry d.type count) ws
        ∧ ws.Forall₂ (fun w c => w.toOrder e.deflate e.config.deflateLevel order = .ok c) cs
        ∧ cursor.rest = Word.toBytes order 4 count ++ entries order ws
        ∧ cs.length = schema.slotCount
        ∧ p = { schema, count, columns := cs } := by
  rw [ofPayload]
  constructor
  · intro h
    obtain ⟨⟨count, cursor₁⟩, h₁, h⟩ := bind_eq_ok_iff.1 h
    obtain ⟨⟨cs, cursor₂⟩, h₂, h⟩ := bind_eq_ok_iff.1 h
    obtain ⟨hslots, h⟩ := check_eq_ok_iff.1 h
    obtain ⟨htrailing, h⟩ := check_eq_ok_iff.1 h
    cases h
    obtain ⟨hcount, hrest₁, -⟩ := Cursor.word_eq_ok_iff.1 h₁
    obtain ⟨ws, hentries, hturns, hrest₂, -⟩ := readColumns_eq_ok_iff.1 h₂
    have hnil : cursor₂.rest = [] := List.length_eq_zero_iff.1 (Classical.not_not.1 htrailing)
    refine ⟨count, ws, cs, hcount, hentries, hturns, ?_, Classical.not_not.1 hslots, rfl⟩
    rw [hrest₁, hrest₂, hnil, List.append_nil]
  · rintro ⟨count, ws, cs, hcount, hentries, hturns, hrest, hslots, rfl⟩
    let cursor₁ : Cursor := ⟨cursor.position + 4, entries order ws⟩
    let cursor₂ : Cursor := ⟨cursor.position + 4 + (ws.map Column.wireSize).sum, []⟩
    have h₁ : cursor.word order = .ok (count, cursor₁) :=
      Cursor.word_eq_ok_iff.2 ⟨hcount, hrest, rfl⟩
    have h₂ : readColumns e order count schema.dimensions cursor₁ = .ok (cs, cursor₂) :=
      readColumns_eq_ok_iff.2 ⟨ws, hentries, hturns, (List.append_nil _).symm, rfl⟩
    refine bind_eq_ok_iff.2 ⟨_, h₁, bind_eq_ok_iff.2 ⟨_, h₂, ?_⟩⟩
    exact check_eq_ok_iff.2 ⟨fun h => h hslots, check_eq_ok_iff.2 ⟨fun h => h rfl, rfl⟩⟩

theorem write_all_eq_ok_iff {texts : List (List UInt8)} :
    cs.mapM (Column.write e.deflate e.config.deflateLevel order) = .ok texts ↔
      ∃ ws, cs.Forall₂ (fun c w => c.toOrder e.deflate e.config.deflateLevel order = .ok w) ws
        ∧ texts = ws.map (Column.entry order) := by
  rw [mapM_eq_ok_iff]
  induction cs generalizing texts with
  | nil => simp
  | cons c cs ih =>
    constructor
    · rintro (_ | ⟨htext, htexts⟩)
      obtain ⟨w, hturn, rfl⟩ := Column.write_eq_ok_iff.1 htext
      obtain ⟨ws, hturns, rfl⟩ := ih.1 htexts
      exact ⟨w :: ws, .cons hturn hturns, rfl⟩
    · rintro ⟨ws, _ | ⟨hturn, hturns⟩, rfl⟩
      exact .cons (Column.write_eq_ok_iff.2 ⟨_, hturn, rfl⟩) (ih.2 ⟨_, hturns, rfl⟩)

/-- What a patch writes after the opening: the number of points and the entries of its columns,
turned around. -/
theorem payload_eq_ok_iff {p : ColumnPatch} {message : List UInt8} :
    p.payload e order = .ok message ↔
      ∃ ws, p.columns.Forall₂
          (fun c w => c.toOrder e.deflate e.config.deflateLevel order = .ok w) ws
        ∧ message = Word.toBytes order 4 p.count ++ entries order ws := by
  rw [payload, bind_eq_ok_iff]
  constructor
  · rintro ⟨texts, htexts, h⟩
    cases h
    obtain ⟨ws, hturns, rfl⟩ := write_all_eq_ok_iff.1 htexts
    exact ⟨ws, hturns, rfl⟩
  · rintro ⟨ws, hturns, rfl⟩
    exact ⟨_, write_all_eq_ok_iff.2 ⟨ws, hturns, rfl⟩, rfl⟩

end ColumnPatch

end PointPatch
