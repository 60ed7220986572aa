/-
PointPatch/Proofs/Machine/Patch.lean

Messages of patches as a machine reads them.

`Machine.ofWire` reads a patch with every number in a word and every buffer
reached into by place.  It never stops, whatever the message
(`Machine.ofWire_eq`): it gives what the library gives, but for columns whose
rows would take more bytes than a word counts or memory holds, which it refuses
before it makes room for them.

The number of points of a message is taken at its word until the columns have
been decoded, so the machine multiplies it with nothing wider than an element
until then.
-/
import PointPatch.Proofs.Machine.Column
import PointPatch.Proofs.Machine.Rows
import PointPatch.Proofs.Patch.Grammar

namespace PointPatch

/-- The codec gives back no more rows than a word counts bytes of. -/
def BlobCodec.Addressable (c : BlobCodec) : Prop :=
  ∀ schema blob count rows, c.decode schema blob count = .ok rows →
    schema.size * count.toNat < Machine.wordLimit

/-- The codec that comes with the library looks at the number of bytes first. -/
theorem BlobCodec.addressable_ofStream (z : StreamCodec) (level : Int) :
    (BlobCodec.ofStream z level).Addressable := by
  intro schema blob count rows h
  by_contra hover
  rw [BlobCodec.ofStream] at h
  simp only at h
  rw [if_pos (show Nat.pow 2 64 ≤ _ from Nat.not_lt.1 hover)] at h
  cases h

namespace Machine

variable {e : Engine} {schema : Schema} {message : List UInt8} {order : ByteOrder} {c : Cursor}

/-! ### Openings -/

/-- What a message holds behind a cursor. -/
def remaining (message : List UInt8) (c : Cursor) : Machine (List UInt8) :=
  range (min c.position message.length) message.length message

/-- Reads the opening of the message of a patch. -/
def readOpening (message : List UInt8) : Machine (Opening × Cursor) := do
  if message = [] then throw .emptyMessage
  if message.length < Opening.size then throw (.headerTooShort message.length)
  let flag ← item message 0
  let order ← lift (ByteOrder.ofFlag flag)
  let (_, c) ← lift (Cursor.start message).byte
  let (id, c) ← lift (c.word order)
  let (tag, c) ← lift (c.word order)
  let form ← lift (Representation.ofTag tag)
  return (⟨order, UInt32.ofNat id, form⟩, c)

theorem remaining_eq (h : IsIn message c) : remaining message c = pure c.rest := by
  rw [remaining, Nat.min_eq_left h.1, range_to_end h.1, h.2]

theorem readOpening_eq (message : List UInt8) : readOpening message = lift (Opening.read message) := by
  rw [readOpening, Opening.read]
  refine check_eq_lift ?_
  intro hne
  refine check_eq_lift ?_
  intro _
  cases message with
  | nil => exact absurd rfl hne
  | cons flag rest =>
    have hbyte : (Cursor.start (flag :: rest)).byte
        = .ok (flag, (Cursor.start (flag :: rest)).advance 1) := rfl
    rw [item_eq (x := flag) rfl, pure_bind, Opening.readShort, hbyte, ok_bind, bind_assoc]
    refine bind_eq_lift rfl ?_
    intro order _
    rw [lift_ok, pure_bind, bind_assoc]
    refine bind_eq_lift rfl ?_
    rintro ⟨id, c₁⟩ -
    refine bind_eq_lift rfl ?_
    rintro ⟨tag, c₂⟩ -
    exact bind_eq_lift rfl fun form _ => rfl

theorem isIn_of_read {o : Opening} (h : Opening.read message = .ok (o, c)) : IsIn message c := by
  obtain ⟨hmessage, hposition⟩ := Opening.read_eq_ok_iff.1 h
  refine (isIn_start message).step hmessage ?_
  rw [hposition, Opening.length_bytes]
  exact (Nat.zero_add _).symm

/-! ### Rows -/

/-- Rows as they come out of a message of the given order. -/
def turnRowsFor (schema : Schema) (order : ByteOrder) (rows : List UInt8) :
    Machine (List UInt8) :=
  if order.isForeign then turnRows schema rows else pure rows

/-- Reads a patch held as rows. -/
def readRows (schema : Schema) (order : ByteOrder) (message : List UInt8) (c : Cursor) :
    Machine RowPatch := do
  let payload ← remaining message c
  let _ ← countRows schema payload.length
  let rows ← turnRowsFor schema order payload
  let count ← countRows schema rows.length
  let bounds ← bounds schema rows
  let summary ← summary schema rows
  return { schema, count, bounds, summary, rows, capacity := count }

theorem turnRowsFor_eq (hb : schema.Built) (hsize : schema.size < wordLimit) (rows : List UInt8) :
    turnRowsFor schema order rows = pure (schema.turnRows order rows) := by
  rw [turnRowsFor, Schema.turnRows]
  split
  · exact turnRows_eq hb hsize rows
  · rfl

theorem readRows_eq (hb : schema.Built) (hsize : schema.size < wordLimit)
    (hmessage : message.length < wordLimit) (h : IsIn message c) :
    readRows schema order message c = lift (RowPatch.ofPayload schema order c.rest) := by
  have hrest : c.rest.length < wordLimit := by
    rw [h.2, List.length_drop]
    omega
  have hturned : (schema.turnRows order c.rest).length < wordLimit := by
    rw [Schema.length_turnRows hb]
    exact hrest
  rw [readRows, remaining_eq h, pure_bind, RowPatch.ofPayload]
  refine bind_eq_lift (countRows_eq schema _) ?_
  intro _ _
  rw [turnRowsFor_eq hb hsize, pure_bind, RowPatch.ofRows]
  refine bind_eq_lift (countRows_eq schema _) ?_
  intro count _
  rw [bounds_eq hb hsize, pure_bind, summary_eq hb hsize hturned, pure_bind]
  rfl

/-! ### Columns -/

/-- Reads the columns of some dimensions, one after another. -/
def readColumns (e : Engine) (order : ByteOrder) (message : List UInt8) (count : Nat) :
    List Dimension → Cursor → Machine (List Column × Cursor)
  | [], c => pure ([], c)
  | d :: ds, c => do
    let (column, c) ←
      readColumn e.deflate e.config.deflateLevel order message d.type count c
    let (columns, c) ← readColumns e order message count ds c
    return (column :: columns, c)

/-- Reads a patch held as columns. -/
def readColumnPatch (e : Engine) (schema : Schema) (order : ByteOrder) (message : List UInt8)
    (c : Cursor) : Machine ColumnPatch := do
  let (count, c) ← lift (c.word order)
  let (columns, c) ← readColumns e order message count schema.dimensions c
  if columns.length ≠ schema.slotCount then throw (.unfilledSlots schema.pcid)
  let trailing ← remaining message c
  if trailing.length ≠ 0 then throw (.trailingBytes trailing.length)
  return { schema, count, columns }

/-- Fails for a raw column that is not as long as the patch says. -/
def checkLength (count : Nat) (d : Dimension) (c : Column) : Machine Unit := do
  if c.count ≠ count then throw (.columnLength d.name c.payload.length count)
  let expected ← mul count d.size
  if c.payload.length ≠ expected then throw (.columnLength d.name c.payload.length count)

/-- A buffer of rows with the values of a raw column put in at `byteOffset`. -/
def scatter (c : Column) (rowSize byteOffset : Nat) (buffer : List UInt8) :
    Machine (List UInt8) := do
  let rows ← pieces rowSize buffer
  let values ← pieces c.type.size c.payload
  let written ← (rows.zip values).mapM fun (row, value) => do
    let stop ← add byteOffset c.type.size
    replace byteOffset stop value row
  return (written ++ rows.drop values.length).flatten
    ++ buffer.drop (buffer.length / rowSize * rowSize)

/-- Rows put together from raw columns, each in the field of its dimension. -/
def weave (schema : Schema) (count : Nat) (columns : List Column) : Machine (List UInt8) :=
  (schema.dimensions.zip columns).foldlM
    (fun buffer (d, c) => scatter c schema.size d.byteOffset buffer)
    (List.replicate (schema.size * count) 0)

/-- A patch held as columns, held as rows. -/
def columnsToRows (z : ColumnCodec) (p : ColumnPatch) : Machine RowPatch := do
  let raws ← p.columns.mapM (decodeColumn z)
  (p.schema.dimensions.zip raws).forM fun (d, c) => checkLength p.count d c
  lift (RowPatch.checkRoom z.memory p.schema p.count)
  let rows ← weave p.schema p.count raws
  return RowPatch.ofHeader p.toPatchHeader rows

theorem readColumns_eq {count : Nat} (hmessage : message.length < wordLimit)
    {ds : List Dimension} (h : IsIn message c) :
    readColumns e order message count ds c
      = lift (ColumnPatch.readColumns e order count ds c) := by
  induction ds generalizing c with
  | nil => rfl
  | cons d ds ih =>
    rw [readColumns, ColumnPatch.readColumns]
    refine bind_eq_lift (readColumn_eq h hmessage) ?_
    rintro ⟨column, c₁⟩ h₁
    obtain ⟨w, -, -, hrest, hposition⟩ := Column.read_eq_ok_iff.1 h₁
    have hin : IsIn message c₁ := h.step hrest (by rw [hposition, Column.length_entry])
    exact bind_eq_lift (ih hin) fun _ _ => rfl

theorem readColumnPatch_eq (hmessage : message.length < wordLimit) (h : IsIn message c) :
    readColumnPatch e schema order message c
      = lift (ColumnPatch.ofPayload e schema order c) := by
  rw [readColumnPatch, ColumnPatch.ofPayload]
  refine bind_eq_lift rfl ?_
  rintro ⟨count, c₁⟩ h₁
  obtain ⟨-, hrest₁, hposition₁⟩ := Cursor.word_eq_ok_iff.1 h₁
  have hin₁ : IsIn message c₁ := h.step hrest₁ (by rw [hposition₁, Word.length_toBytes])
  refine bind_eq_lift (readColumns_eq hmessage hin₁) ?_
  rintro ⟨columns, c₂⟩ h₂
  obtain ⟨ws, -, -, hrest₂, hposition₂⟩ := ColumnPatch.readColumns_eq_ok_iff.1 h₂
  have hin₂ : IsIn message c₂ :=
    hin₁.step hrest₂ (by rw [hposition₂, ColumnPatch.length_entries])
  refine check_eq_lift ?_
  intro _
  rw [remaining_eq hin₂, pure_bind]
  exact check_eq_lift fun _ => rfl

theorem checkLength_eq {count : Nat} (hcount : count < 256 ^ 4) (d : Dimension) (c : Column) :
    checkLength count d c = lift (ColumnPatch.checkLength count d c) := by
  have hproduct : count * d.size < wordLimit := count_mul_size_lt hcount d.type.size_le
  rw [checkLength, ColumnPatch.checkLength]
  by_cases hne : c.count ≠ count
  · rw [if_pos hne, if_pos (.inl hne)]
    rfl
  rw [if_neg hne, mul_eq hproduct, pure_bind]
  by_cases hlength : c.payload.length ≠ count * d.size
  · rw [if_pos hlength, if_pos (.inr hlength)]
    rfl
  · rw [if_neg hlength, if_neg (not_or.2 ⟨hne, hlength⟩)]
    rfl

/-- Values of the type of a dimension are put into rows without stopping the machine, and the
rows keep their length. -/
theorem scatter_eq (hb : schema.Built) (hsize : schema.size < wordLimit) {d : Dimension}
    (hd : d ∈ schema.dimensions) {c : Column} (htype : c.type = d.type) {rows : List (List UInt8)}
    (hrows : ∀ row ∈ rows, row.length = schema.size) :
    scatter c schema.size d.byteOffset rows.flatten = pure (c.scatter rows d.byteOffset).flatten
      ∧ ∀ row ∈ c.scatter rows d.byteOffset, row.length = schema.size := by
  have hzero := size_ne_zero hd
  have hpieces : chunks schema.size rows.flatten = rows :=
    chunks_flatten (Nat.pos_of_ne_zero hzero) hrows
  -- the rows are all there is of the buffer
  have hrest : rows.flatten.drop (rows.flatten.length / schema.size * schema.size) = [] := by
    rw [length_flatten_of_forall hrows, Nat.mul_div_cancel _ (Nat.pos_of_ne_zero hzero),
      ← length_flatten_of_forall hrows, List.drop_length]
  have hfits : ∀ x ∈ rows.zip (chunks c.type.size c.payload),
      LiesIn d x.1 ∧ x.2.length = d.size ∧ x.1.length = schema.size := by
    rintro ⟨row, value⟩ hx
    have hrow := hrows row (List.of_mem_zip hx).1
    have hvalue := length_of_mem_chunks (List.of_mem_zip hx).2
    exact ⟨liesIn hb hsize hd hrow, by rw [hvalue, htype]; rfl, hrow⟩
  have hwrite : ∀ x ∈ rows.zip (chunks c.type.size c.payload),
      (add d.byteOffset c.type.size >>= fun stop => replace d.byteOffset stop x.2 x.1)
        = pure (overwrite d.byteOffset x.2 x.1) := by
    intro x hx
    obtain ⟨hlies, hvalue, -⟩ := hfits x hx
    rw [htype]
    exact setField_eq hlies hvalue
  refine ⟨?_, fun row hrow => ?_⟩
  · rw [scatter, pieces_eq hzero, pure_bind, pieces_eq (Nat.ne_of_gt c.type.size_pos), pure_bind,
      hpieces, mapM_eq_pure hwrite, pure_bind, hrest, List.append_nil]
    rfl
  · rcases List.mem_append.1 hrow with hrow | hrow
    · obtain ⟨x, hx, rfl⟩ := List.mem_map.1 hrow
      obtain ⟨hlies, hvalue, hlength⟩ := hfits x hx
      rw [length_overwrite (by rw [hvalue]; exact hlies.stop_le), hlength]
    · exact hrows row (List.mem_of_mem_drop hrow)

theorem weave_eq (hb : schema.Built) (hsize : schema.size < wordLimit) (count : Nat)
    {columns : List Column} (htypes : schema.dimensions.Forall₂ (fun d c => c.type = d.type) columns) :
    weave schema count columns = pure (ColumnPatch.weave schema count columns).flatten := by
  have hzeros : (chunks schema.size (List.replicate (schema.size * count) (0 : UInt8))).flatten
      = List.replicate (schema.size * count) 0 := by
    refine flatten_chunks ?_
    rw [List.length_replicate, Nat.mul_mod_right]
  have hstep : ∀ (rows : List (List UInt8)), ∀ x ∈ schema.dimensions.zip columns,
      (∀ row ∈ rows, row.length = schema.size) →
      scatter x.2 schema.size x.1.byteOffset rows.flatten
          = pure (x.2.scatter rows x.1.byteOffset).flatten
        ∧ ∀ row ∈ x.2.scatter rows x.1.byteOffset, row.length = schema.size :=
    fun rows x hx hrows =>
      scatter_eq hb hsize (List.of_mem_zip hx).1 (List.forall₂_zip htypes hx) hrows
  have hstart : ∀ row ∈ chunks schema.size (List.replicate (schema.size * count) (0 : UInt8)),
      row.length = schema.size := fun row hrow => length_of_mem_chunks hrow
  -- the library keeps the rows apart, the machine holds them as one buffer
  have hloop := foldlM_view_eq_pure (v := List.flatten)
    (f := fun buffer (x : Dimension × Column) => scatter x.2 schema.size x.1.byteOffset buffer)
    (P := fun rows => ∀ row ∈ rows, row.length = schema.size) hstep hstart
  rw [hzeros] at hloop
  exact hloop

/-- The rows of columns do not stop the machine, also where it has no room for them. -/
theorem columnsToRows_eq {z : ColumnCodec} {p : ColumnPatch} (hb : p.schema.Built)
    (hsize : p.schema.size < wordLimit) (hcount : p.count < 256 ^ 4)
    (hcolumns : p.schema.dimensions.Forall₂ (fun d c => c.type = d.type ∧ IsBounded c) p.columns) :
    columnsToRows z p = lift (p.uncompress z) := by
  obtain ⟨htypes, hbounded⟩ := forall₂_and_iff.1 hcolumns
  have hdecode : ∀ c ∈ p.columns, decodeColumn z c = lift (c.decode z) := by
    intro c hc
    obtain ⟨d, -, hc⟩ := exists_of_mem_right hbounded hc
    exact decodeColumn_eq hc
  rw [columnsToRows, ColumnPatch.uncompress, ColumnPatch.toRows, ColumnPatch.decode]
  simp only [bind_assoc]
  refine bind_eq_lift (mapM_eq_lift hdecode) ?_
  intro raws hraws
  -- decoding does not change types
  have hrawTypes : p.schema.dimensions.Forall₂ (fun d c => c.type = d.type) raws := by
    refine forall₂_comp ?_ htypes (mapM_eq_ok_iff.1 hraws)
    intro d c raw htype hraw
    obtain ⟨bytes, -, rfl⟩ := Column.decode_eq_ok_iff.1 hraw
    exact htype
  rw [pure_bind]
  refine bind_eq_lift (forM_eq_lift fun x _ => checkLength_eq hcount x.1 x.2) ?_
  intro _ _
  -- the machine asks for room before it weaves the rows
  refine bind_eq_lift rfl ?_
  intro _ _
  rw [weave_eq hb hsize p.count hrawTypes, pure_bind]
  rfl

/-! ### Blobs -/

/-- Reads a patch held as a blob. -/
def readBlob (schema : Schema) (order : ByteOrder) (message : List UInt8) (c : Cursor) :
    Machine BlobPatch := do
  let (count, c) ← lift (c.word order)
  let blob ← remaining message c
  return { schema, count, blob }

/-- A patch held as a blob, held as rows. -/
def blobToRows (codec : BlobCodec) (p : BlobPatch) : Machine RowPatch := do
  let rows ← lift (codec.decode p.schema p.blob (UInt32.ofNat p.count))
  let expected ← mul p.schema.size p.count
  if rows.length ≠ expected then
    throw (.codecLength codec.name rows.length p.count p.schema.size)
  return RowPatch.ofHeader p.toPatchHeader rows

theorem readBlob_eq (h : IsIn message c) :
    readBlob schema order message c = lift (BlobPatch.ofPayload schema order c) := by
  rw [readBlob, BlobPatch.ofPayload]
  refine bind_eq_lift rfl ?_
  rintro ⟨count, c₁⟩ h₁
  obtain ⟨-, hrest, hposition⟩ := Cursor.word_eq_ok_iff.1 h₁
  have hin : IsIn message c₁ := h.step hrest (by rw [hposition, Word.length_toBytes])
  show (remaining message c₁ >>= _) = _
  rw [remaining_eq hin, pure_bind]
  rfl

theorem blobToRows_eq {codec : BlobCodec} (hcodec : codec.Addressable) {p : BlobPatch}
    (hcount : p.count < 256 ^ 4) : blobToRows codec p = lift (p.toRows codec) := by
  rw [blobToRows, BlobPatch.toRows]
  refine bind_eq_lift rfl ?_
  intro rows hrows
  have hproduct := hcodec _ _ _ _ hrows
  rw [UInt32.toNat_ofNat_of_lt' hcount] at hproduct
  rw [mul_eq hproduct, pure_bind]
  exact check_eq_lift fun _ => rfl

/-! ### Patches -/

/-- The patch held as rows, if there is room for them. -/
def toRows (e : Engine) : Patch → Machine RowPatch
  | .rows p => pure p
  | .columns p => columnsToRows e.deflate p
  | .blob p => do
    let codec ← lift e.blobCodec
    blobToRows codec p

/-- The patch with bounds and summary computed anew. -/
def summarise (e : Engine) (p : Patch) : Machine Patch := do
  let raw ← toRows e p
  let bounds ← bounds raw.schema raw.rows
  let summary ← summary raw.schema raw.rows
  return p.withHeader { p.header with bounds, summary }

/-- Reads a patch from its message. -/
def ofWire (e : Engine) (schema : Schema) (message : List UInt8) : Machine Patch := do
  let (opening, c) ← readOpening message
  if opening.pcid ≠ schema.pcid then throw (.schemaMismatch opening.pcid schema.pcid)
  match opening.form with
  | .rows =>
    let p ← readRows schema opening.order message c
    return .rows p
  | .columns =>
    let p ← readColumnPatch e schema opening.order message c
    summarise e (.columns p)
  | .blob =>
    let p ← readBlob schema opening.order message c
    summarise e (.blob p)

/-- Fails for columns whose rows cannot be held in one buffer. -/
def withinMemory (memory : Memory) (p : Patch) : Except Fault Patch := do
  if p.form = .columns then RowPatch.checkRoom memory p.schema p.count
  return p

/-- Where the rows can be had, or refused, without stopping, so can bounds and summary. -/
theorem summarise_eq {p : Patch} {x : Except Fault RowPatch} (hrows : toRows e p = lift x)
    (hok : ∀ raw, x = .ok raw →
      raw.schema.Built ∧ raw.schema.size < wordLimit ∧ raw.rows.length < wordLimit) :
    summarise e p = lift (x >>= fun raw => .ok (p.withHeader { p.header with
      bounds := raw.summarise.bounds
      summary := raw.summarise.summary })) := by
  refine bind_eq_lift hrows ?_
  intro raw hraw
  obtain ⟨hb, hsize, hlength⟩ := hok raw hraw
  rw [bounds_eq hb hsize, pure_bind, summary_eq hb hsize hlength, pure_bind]
  rfl

/-- Columns of a message have the types of the dimensions, and numbers of four bytes. -/
theorem columns_of_ofPayload {p : ColumnPatch}
    (h : ColumnPatch.ofPayload e schema order c = .ok p) :
    p.schema = schema ∧ p.count < 256 ^ 4
      ∧ p.schema.dimensions.Forall₂ (fun d c => c.type = d.type ∧ IsBounded c) p.columns := by
  obtain ⟨count, ws, cs, hcount, hentries, hturns, -, -, rfl⟩ := ColumnPatch.ofPayload_eq_ok_iff.1 h
  refine ⟨rfl, hcount, forall₂_comp ?_ hentries hturns⟩
  intro d w column hentry hturn
  refine ⟨(Column.type_of_toOrder hturn).trans hentry.type_eq, ?_, fun hmode => ?_⟩
  · rw [Column.count_of_toOrder hturn, hentry.count_eq]
    exact hcount
  · have hexact : w.TurnsExactly order :=
      Column.turnsExactly_of_mode_ne fun hw => hmode ((Column.mode_of_toOrder hturn).trans hw)
    rw [Column.length_payload_of_toOrder hexact hturn]
    exact hentry.length_lt

theorem summarise_columns_eq {p : ColumnPatch} (hb : p.schema.Built)
    (hsize : p.schema.size < wordLimit) (hcount : p.count < 256 ^ 4)
    (hcolumns : p.schema.dimensions.Forall₂ (fun d c => c.type = d.type ∧ IsBounded c) p.columns) :
    summarise e (.columns p)
      = lift (Patch.summarise e (.columns p) >>= withinMemory e.deflate.memory) := by
  have htypes := (forall₂_and_iff.1 hcolumns).1
  have hrows : toRows e (.columns p) = _ := columnsToRows_eq hb hsize hcount hcolumns
  rw [summarise_eq hrows, ColumnPatch.uncompress, Patch.summarise]
  · -- the machine asks for room before it summarises the rows, here it is asked for after that
    simp only [bind_assoc]
    rfl
  · intro raw hraw
    obtain ⟨hraw, hroom⟩ := ColumnPatch.uncompress_eq_ok_iff.1 hraw
    have hrows : (Patch.columns p).toRows e = .ok raw := hraw
    have hlength : raw.rows.length = p.schema.size * p.count :=
      (ColumnPatch.wellFormed_of_toRows htypes hraw).length_of_toRows (p := .columns p) hb hrows
    rw [Patch.schema_of_toRows hrows, hlength]
    exact ⟨hb, hsize, lt_of_grants hroom⟩

theorem summarise_blob_eq {p : BlobPatch} (hb : p.schema.Built)
    (hsize : p.schema.size < wordLimit) (hcount : p.count < 256 ^ 4)
    (hcodec : ∀ codec, e.blobCodec? = some codec → codec.Addressable) :
    summarise e (.blob p) = lift (Patch.summarise e (.blob p) >>= withinMemory e.deflate.memory) := by
  -- only columns can be refused
  have hwithin : (Patch.summarise e (.blob p) >>= withinMemory e.deflate.memory)
      = Patch.summarise e (.blob p) := by
    rw [Patch.summarise, bind_assoc]
    rfl
  rw [hwithin]
  have hrows : toRows e (.blob p) = lift (Patch.toRows e (.blob p)) :=
    bind_eq_lift rfl fun codec h =>
      blobToRows_eq (hcodec codec (Patch.blobCodec_eq_ok_iff.1 h)) hcount
  refine summarise_eq hrows ?_
  intro raw hraw
  obtain ⟨codec, rows, hsome, hdecode, hlength, rfl⟩ := Patch.toRows_blob_eq_ok_iff.1 hraw
  have hproduct := hcodec codec hsome _ _ _ _ hdecode
  rw [UInt32.toNat_ofNat_of_lt' hcount] at hproduct
  refine ⟨hb, hsize, ?_⟩
  show rows.length < wordLimit
  rw [hlength]
  exact hproduct

/-- Reading a message never stops the machine, and gives what the library gives, unless there is no
room for the rows of columns. -/
theorem ofWire_eq (hb : schema.Built) (hsize : schema.size < wordLimit)
    (hmessage : message.length < wordLimit)
    (hcodec : ∀ codec, e.blobCodec? = some codec → codec.Addressable) :
    ofWire e schema message = lift (Patch.ofWire e schema message >>= withinMemory e.deflate.memory) := by
  rw [ofWire, Patch.ofWire, bind_assoc]
  refine bind_eq_lift (readOpening_eq message) ?_
  rintro ⟨⟨order, pcid, form⟩, c⟩ hopen
  have hin := isIn_of_read hopen
  dsimp only
  by_cases hpcid : pcid ≠ schema.pcid
  · rw [if_pos hpcid, if_pos hpcid]
    rfl
  rw [if_neg hpcid, if_neg hpcid]
  cases form with
  | rows =>
    show _ = lift ((RowPatch.ofPayload schema order c.rest >>= _) >>= _)
    rw [bind_assoc]
    exact bind_eq_lift (readRows_eq hb hsize hmessage hin) fun p _ => rfl
  | columns =>
    show _ = lift ((ColumnPatch.ofPayload e schema order c >>= _) >>= _)
    rw [bind_assoc]
    refine bind_eq_lift (readColumnPatch_eq hmessage hin) ?_
    intro p hp
    obtain ⟨rfl, hcount, hcolumns⟩ := columns_of_ofPayload hp
    exact summarise_columns_eq hb hsize hcount hcolumns
  | blob =>
    show _ = lift ((BlobPatch.ofPayload schema order c >>= _) >>= _)
    rw [bind_assoc]
    refine bind_eq_lift (readBlob_eq hin) ?_
    intro p hp
    obtain ⟨count, blob, hcount, -, rfl⟩ := BlobPatch.ofPayload_eq_ok_iff.1 hp
    exact summarise_blob_eq hb hsize hcount hcodec

end Machine

end PointPatch
