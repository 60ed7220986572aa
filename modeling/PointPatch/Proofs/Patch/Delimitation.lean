/-
PointPatch/Proofs/Patch/Delimitation.lean

Where a message ends.

The message of a patch held as columns is an opening, the number of points and
an entry for each dimension of the schema.  Each of these tells where it ends:
the first two are of one size, and an entry states its length.  So bytes begin
with one such message at most (`columnMessage_append_inj`).

Nothing may follow the last entry.  Of the messages that are accepted with
columns none is therefore the beginning of another one, and a message that is
cut off, at whatever place, is never taken for a smaller patch
(`ofWire_delimited`).  This does not need to look into the payloads, some of
which may be followed by more than is read of them.
-/
import PointPatch.Proofs.Column.Delimitation
import PointPatch.Proofs.Patch.Reencoding

namespace PointPatch

variable {e e' : Engine} {schema : Schema}

/-! ### Entries -/

/-- Bytes begin with the entries of one list of columns at most, one for each dimension. -/
theorem ColumnPatch.entries_append_inj {order : ByteOrder} {count : Nat} {ds : List Dimension}
    {ws ws' : List Column} {rest rest' : List UInt8}
    (hws : ds.Forall₂ (fun d w => w.IsEntry d.type count) ws)
    (hws' : ds.Forall₂ (fun d w => w.IsEntry d.type count) ws')
    (h : entries order ws ++ rest = entries order ws' ++ rest') : ws = ws' ∧ rest = rest' := by
  induction hws generalizing ws' with
  | nil =>
    cases hws'
    exact ⟨rfl, h⟩
  | cons hw _ ih =>
    cases hws' with
    | cons hw' hws' =>
      rw [entries, entries, List.flatMap_cons, List.flatMap_cons, List.append_assoc,
        List.append_assoc] at h
      -- the first entries end at the same place
      obtain ⟨rfl, hmore⟩ := Column.entry_append_inj hw hw' h
      obtain ⟨rfl, hrest⟩ := ih hws' hmore
      exact ⟨rfl, hrest⟩

namespace Patch

variable {message message' : List UInt8} {p p' : Patch} {o : Opening} {cursor : Cursor}

/-- Bytes begin with one message of columns at most. -/
theorem columnMessage_append_inj {o o' : Opening} {count count' : Nat} {ws ws' : List Column}
    {rest rest' : List UInt8} (hcount : count < 256 ^ 4) (hcount' : count' < 256 ^ 4)
    (hws : schema.dimensions.Forall₂ (fun d w => w.IsEntry d.type count) ws)
    (hws' : schema.dimensions.Forall₂ (fun d w => w.IsEntry d.type count') ws')
    (h : columnMessage o count ws ++ rest = columnMessage o' count' ws' ++ rest') :
    o = o' ∧ count = count' ∧ ws = ws' ∧ rest = rest' := by
  simp only [columnMessage, List.append_assoc] at h
  obtain ⟨rfl, hbody⟩ := Opening.bytes_append_inj h
  obtain ⟨hfield, hentries⟩ :=
    List.append_inj hbody (by rw [Word.length_toBytes, Word.length_toBytes])
  obtain rfl := Word.toBytes_inj hcount hcount' hfield
  obtain ⟨rfl, hrest⟩ := ColumnPatch.entries_append_inj hws hws' hentries
  exact ⟨rfl, rfl, rfl, hrest⟩

/-! ### Messages -/

/-- A patch is held in the form that its message opens with. -/
theorem form_of_ofWire (hopen : Opening.read message = .ok (o, cursor))
    (h : ofWire e schema message = .ok p) : p.form = o.form := by
  obtain ⟨order, body, hmessage, -⟩ := ofWire_eq_ok_iff.1 h
  obtain ⟨hopen, -⟩ := Opening.read_eq_ok_iff.1 hopen
  obtain ⟨rfl, -⟩ := Opening.bytes_append_inj (hopen.symm.trans hmessage)
  rfl

/-- Where one of two accepted messages begins the other, both open with the same form. -/
theorem form_eq_of_append {more : List UInt8} (h : ofWire e schema message = .ok p)
    (h' : ofWire e' schema (message ++ more) = .ok p') : p.form = p'.form := by
  obtain ⟨order, body, rfl, -⟩ := ofWire_eq_ok_iff.1 h
  obtain ⟨order', body', hmessage', -⟩ := ofWire_eq_ok_iff.1 h'
  rw [List.append_assoc] at hmessage'
  obtain ⟨hopen, -⟩ := Opening.bytes_append_inj hmessage'
  exact congrArg Opening.form hopen

theorem exists_eq_columns_of_form (h : p.form = .columns) : ∃ c, p = .columns c := by
  cases p with
  | rows p => cases h
  | columns p => exact ⟨p, rfl⟩
  | blob p => cases h

/-- An accepted message of columns does not begin a longer one. -/
theorem eq_nil_of_append {more : List UInt8} (hform : p.form = .columns)
    (h : ofWire e schema message = .ok p) (h' : ofWire e' schema (message ++ more) = .ok p') :
    more = [] := by
  have hform' := (form_eq_of_append h h').symm.trans hform
  obtain ⟨p, rfl⟩ := exists_eq_columns_of_form hform
  obtain ⟨p', rfl⟩ := exists_eq_columns_of_form hform'
  obtain ⟨order, ws, rfl, -, hcount, hws, -⟩ := exists_entries_of_ofWire h
  obtain ⟨order', ws', hmessage', -, hcount', hws', -⟩ := exists_entries_of_ofWire h'
  rw [← List.append_nil (columnMessage _ p'.count ws')] at hmessage'
  exact (columnMessage_append_inj hcount hcount' hws hws' hmessage').2.2.2

/-- Of two accepted messages of columns for one schema, none begins the other. -/
theorem eq_of_isPrefix (hform : p.form = .columns) (h : ofWire e schema message = .ok p)
    (h' : ofWire e' schema message' = .ok p') (hbegins : message <+: message') :
    message = message' := by
  obtain ⟨more, rfl⟩ := hbegins
  rw [eq_nil_of_append hform h h', List.append_nil]

/-- An accepted message that says columns ends where it does: every message that it is the
beginning of, and every message that is the beginning of it, is refused.  So none of two such
messages begins the other. -/
theorem ofWire_delimited (hopen : Opening.read message = .ok (o, cursor))
    (hform : o.form = .columns) (h : ofWire e schema message = .ok p) (e' : Engine) :
    (∀ message', message' <+: message → message' ≠ message →
        ∃ fault, ofWire e' schema message' = .error fault)
    ∧ (∀ message', message <+: message' → message' ≠ message →
        ∃ fault, ofWire e' schema message' = .error fault)
    ∧ ∀ message' p', ofWire e' schema message' = .ok p' → message' ≠ message →
        ¬ message' <+: message ∧ ¬ message <+: message' := by
  have hform : p.form = .columns := (form_of_ofWire hopen h).trans hform
  have hshorter : ∀ message' p', ofWire e' schema message' = .ok p' → message' <+: message →
      message' = message := by
    rintro message' p' h' ⟨more, rfl⟩
    exact eq_of_isPrefix ((form_eq_of_append h' h).trans hform) h' h ⟨more, rfl⟩
  have hlonger : ∀ message' p', ofWire e' schema message' = .ok p' → message <+: message' →
      message' = message :=
    fun message' p' h' hbegins => (eq_of_isPrefix hform h h' hbegins).symm
  refine ⟨fun message' hbegins hne => ?_, fun message' hbegins hne => ?_, ?_⟩
  · rcases h' : ofWire e' schema message' with fault | p'
    · exact ⟨fault, rfl⟩
    · exact absurd (hshorter message' p' h' hbegins) hne
  · rcases h' : ofWire e' schema message' with fault | p'
    · exact ⟨fault, rfl⟩
    · exact absurd (hlonger message' p' h' hbegins) hne
  · intro message' p' h' hne
    exact ⟨fun hbegins => hne (hshorter message' p' h' hbegins),
      fun hbegins => hne (hlonger message' p' h' hbegins)⟩

/-- A message with a column in each mode, without its last byte and with a byte behind it. -/
theorem ofWire_delimited_specimen :
    (∃ p, ofWire { deflate := Deflate.codec } .specimen specimenMessage = .ok p)
    ∧ (∃ fault, ofWire { deflate := Deflate.codec } .specimen specimenMessage.dropLast
        = .error fault)
    ∧ ∃ fault, ofWire { deflate := Deflate.codec } .specimen (specimenMessage ++ [0])
        = .error fault := by
  obtain ⟨p, hp, -⟩ := (exists_ofWire_columns_iff (e := { deflate := Deflate.codec })
    Schema.specimen_built (by decide) Deflate.codec_lossless).2 isColumnMessage_specimen
  have hopen : Opening.read specimenMessage = .ok (⟨.big, 7, .columns⟩,
      ⟨Opening.size, Word.toBytes .big 4 3 ++ ColumnPatch.entries .big specimenEntries⟩) :=
    Opening.read_eq_ok_iff.2 ⟨rfl, rfl⟩
  have hlength : specimenMessage.length ≠ 0 := by
    rw [specimenMessage, List.length_append, Opening.length_bytes, Opening.size]
    omega
  obtain ⟨hshorter, hlonger, -⟩ := ofWire_delimited hopen rfl hp { deflate := Deflate.codec }
  refine ⟨⟨p, hp⟩, hshorter _ (List.dropLast_prefix _) fun heq => ?_,
    hlonger _ (List.prefix_append _ _) fun heq => ?_⟩
  · have hlast := congrArg List.length heq
    rw [List.length_dropLast] at hlast
    omega
  · have hlast := congrArg List.length heq
    rw [List.length_append, List.length_singleton] at hlast
    omega

end Patch

end PointPatch
