/-
PointPatch/Proofs/Schema/Statements.lean

What the element of a dimension says.

`IsDescribed` is said of the element tree alone: a name, a position and a type
are stated, and whatever is stated as a position, a type, a scale or an offset
can be read.  These are the elements that a dimension can be had from
(`exists_ofNode_iff`).

Elements that are stated again replace what was stated before.  So the
dimension has the last name and the last position of its element
(`declared_of_ofNode`), which is what `declaredName?` and `declaredPosition?`
look for in the tree.
-/
import PointPatch.Proofs.Outcome
import PointPatch.Schema.Document

namespace PointPatch

open Markup

namespace Statement

/-! ### One statement -/

/-- The name that a statement states. -/
def name? : Statement → Option String
  | .name text => some text
  | _ => none

/-- The position that a statement states, counted from one. -/
def position? : Statement → Option Nat
  | .position slot => some (slot + 1)
  | _ => none

/-- The type that a statement states. -/
def type? : Statement → Option Interpretation
  | .type t => some t
  | _ => none

theorem readPosition_eq_ok_iff {text : String} {slot : Nat} :
    readPosition text = .ok slot ↔ nat? text = some (slot + 1) := by
  rw [readPosition]
  rcases nat? text with - | - | n <;> simp

theorem ofToken_eq_ok_iff {text : String} {t : Interpretation} :
    Interpretation.ofToken text = .ok t ↔ Interpretation.ofToken? text = some t := by
  rw [Interpretation.ofToken]
  rcases Interpretation.ofToken? text with - | t <;> simp

theorem readDouble_eq_ok_iff {field text : String} {value : Double} :
    readDouble field text = .ok value ↔ Double.ofText? text.toList = some value := by
  rw [readDouble]
  rcases Double.ofText? text.toList with - | value <;> simp

section

variable {label text : String} {st : Statement}

theorem ofText_position (text : String) :
    ofText "position" text = (readPosition text).map .position := by
  simp [ofText]

theorem ofText_interpretation (text : String) :
    ofText "interpretation" text = (Interpretation.ofToken text).map .type := by
  simp [ofText]

theorem ofText_scale (text : String) :
    ofText "scale" text = (readDouble "scale" text).map .scale := by
  simp [ofText]

theorem ofText_offset (text : String) :
    ofText "offset" text = (readDouble "offset" text).map .offset := by
  simp [ofText]

/-- The labels that anything can be said with, and what is said with them. -/
theorem exists_ofText_of_ne (hposition : label ≠ "position") (htype : label ≠ "interpretation")
    (hscale : label ≠ "scale") (hoffset : label ≠ "offset") :
    ∃ st, ofText label text = .ok st ∧ st.name? = (if label = "name" then some text else none)
      ∧ st.position? = none ∧ st.type? = none := by
  rw [ofText]
  by_cases hname : label = "name"
  · rw [if_pos hname, if_pos hname]
    exact ⟨_, rfl, rfl, rfl, rfl⟩
  rw [if_neg hname, if_neg hname, if_neg hposition, if_neg htype, if_neg hscale, if_neg hoffset]
  split
  · exact ⟨_, rfl, rfl, rfl, rfl⟩
  split
  · exact ⟨_, rfl, rfl, rfl, rfl⟩
  split
  · exact ⟨_, rfl, rfl, rfl, rfl⟩
  · exact ⟨_, rfl, rfl, rfl, rfl⟩

/-- What can be said with a label: positions, types and numbers have to be readable. -/
theorem exists_ofText_iff :
    (∃ st, ofText label text = .ok st) ↔
      (label = "position" → ∃ slot, nat? text = some (slot + 1))
        ∧ (label = "interpretation" → ∃ t, Interpretation.ofToken? text = some t)
        ∧ (label = "scale" → ∃ value, Double.ofText? text.toList = some value)
        ∧ (label = "offset" → ∃ value, Double.ofText? text.toList = some value) := by
  by_cases hposition : label = "position"
  · subst hposition
    rw [ofText_position, exists_map_eq_ok_iff]
    simp [readPosition_eq_ok_iff]
  by_cases htype : label = "interpretation"
  · subst htype
    rw [ofText_interpretation, exists_map_eq_ok_iff]
    simp [ofToken_eq_ok_iff]
  by_cases hscale : label = "scale"
  · subst hscale
    rw [ofText_scale, exists_map_eq_ok_iff]
    simp [readDouble_eq_ok_iff]
  by_cases hoffset : label = "offset"
  · subst hoffset
    rw [ofText_offset, exists_map_eq_ok_iff]
    simp [readDouble_eq_ok_iff]
  · obtain ⟨st, hst, -⟩ : ∃ st, ofText label text = .ok st ∧ _ :=
      exists_ofText_of_ne hposition htype hscale hoffset
    simp [hposition, htype, hscale, hoffset, hst]

/-- What is stated is stated with its own label, and is what the text says. -/
theorem stated_of_ofText (h : ofText label text = .ok st) :
    st.name? = (if label = "name" then some text else none)
      ∧ st.position? = (if label = "position" then nat? text else none)
      ∧ st.type? = (if label = "interpretation" then Interpretation.ofToken? text else none) := by
  by_cases hposition : label = "position"
  · subst hposition
    rw [ofText_position] at h
    obtain ⟨slot, hslot, rfl⟩ := map_eq_ok_iff.1 h
    simp [name?, position?, type?, readPosition_eq_ok_iff.1 hslot]
  by_cases htype : label = "interpretation"
  · subst htype
    rw [ofText_interpretation] at h
    obtain ⟨t, ht, rfl⟩ := map_eq_ok_iff.1 h
    simp [name?, position?, type?, ofToken_eq_ok_iff.1 ht]
  by_cases hscale : label = "scale"
  · subst hscale
    rw [ofText_scale] at h
    obtain ⟨value, -, rfl⟩ := map_eq_ok_iff.1 h
    simp [name?, position?, type?]
  by_cases hoffset : label = "offset"
  · subst hoffset
    rw [ofText_offset] at h
    obtain ⟨value, -, rfl⟩ := map_eq_ok_iff.1 h
    simp [name?, position?, type?]
  · obtain ⟨st', hst', hstated⟩ := exists_ofText_of_ne hposition htype hscale hoffset
    obtain rfl := Except.ok.inj (h.symm.trans hst')
    rw [if_neg hposition, if_neg htype]
    exact hstated

end

end Statement

namespace Dimension

variable {n : Node} {d : Dimension}

/-! ### All statements of an element -/

/-- Whether an element describes a dimension: it states a name, a position and a type, and every
position, type, scale and offset that it states can be read. -/
structure IsDescribed (n : Node) : Prop where
  name : n.elementsLabelled "name" ≠ []
  position : n.elementsLabelled "position" ≠ []
  type : n.elementsLabelled "interpretation" ≠ []
  position_readable : ∀ c ∈ n.elementsLabelled "position",
    ∃ slot, Statement.nat? (Text.trim c.content) = some (slot + 1)
  type_readable : ∀ c ∈ n.elementsLabelled "interpretation",
    ∃ t, Interpretation.ofToken? (Text.trim c.content) = some t
  scale_readable : ∀ c ∈ n.elementsLabelled "scale",
    ∃ value, Double.ofText? (Text.trim c.content).toList = some value
  offset_readable : ∀ c ∈ n.elementsLabelled "offset",
    ∃ value, Double.ofText? (Text.trim c.content).toList = some value

/-- What the last element with a label says, of those that can be read. -/
def declared? {α : Type} (n : Node) (label : String) (read : String → Option α) : Option α :=
  ((n.elementsLabelled label).filterMap fun c => read (Text.trim c.content)).getLast?

/-- The name that an element states last. -/
def declaredName? (n : Node) : Option String := declared? n "name" some

/-- The position that an element states last, counted from one. -/
def declaredPosition? (n : Node) : Option Nat := declared? n "position" Statement.nat?

/-- The type that an element states last. -/
def declaredType? (n : Node) : Option Interpretation :=
  declared? n "interpretation" Interpretation.ofToken?

/-- The elements with a label are among the elements. -/
theorem elementsLabelled_eq (n : Node) (label : String) :
    n.elementsLabelled label = n.elements.filter fun c => c.label? == some label := by
  rw [Node.elementsLabelled, Node.elements, List.filter_filter]
  refine List.filter_congr ?_
  intro c _
  rcases c.label? with - | l
  · rfl
  · simp

theorem mem_elementsLabelled_iff {c : Node} {label : String} :
    c ∈ n.elementsLabelled label ↔ c ∈ n.children ∧ c.label? = some label := by
  rw [Node.elementsLabelled, List.mem_filter, beq_iff_eq]

/-- The statements of an element can be had if each of its elements says something with its
label. -/
theorem exists_statements_iff_forall :
    (∃ sts, n.elements.mapM Statement.ofNode = .ok sts) ↔
      ∀ label, ∀ c ∈ n.elementsLabelled label,
        ∃ st, Statement.ofText label (Text.trim c.content) = .ok st := by
  constructor
  · rintro ⟨sts, h⟩ label c hc
    have hsts := mapM_eq_ok_iff.1 h
    obtain ⟨hchild, hlabel⟩ := mem_elementsLabelled_iff.1 hc
    have hmem : c ∈ n.elements := List.mem_filter.2 ⟨hchild, by rw [hlabel]; rfl⟩
    obtain ⟨st, -, hst⟩ := exists_of_mem_right hsts.flip hmem
    rw [Statement.ofNode, hlabel] at hst
    exact ⟨st, hst⟩
  · intro h
    obtain ⟨sts, hsts⟩ : ∃ sts, n.elements.Forall₂ (fun c st => Statement.ofNode c = .ok st) sts := by
      apply exists_forall₂
      intro c hc
      obtain ⟨hchild, hlabel⟩ := List.mem_filter.1 hc
      obtain ⟨label, hlabel⟩ := Option.isSome_iff_exists.1 hlabel
      rw [Statement.ofNode, hlabel]
      exact h label c (mem_elementsLabelled_iff.2 ⟨hchild, hlabel⟩)
    exact ⟨sts, mapM_eq_ok_iff.2 hsts⟩

/-- The statements of an element can be had if its positions, types, scales and offsets can be
read. -/
theorem exists_statements_iff :
    (∃ sts, n.elements.mapM Statement.ofNode = .ok sts) ↔
      (∀ c ∈ n.elementsLabelled "position",
          ∃ slot, Statement.nat? (Text.trim c.content) = some (slot + 1))
        ∧ (∀ c ∈ n.elementsLabelled "interpretation",
          ∃ t, Interpretation.ofToken? (Text.trim c.content) = some t)
        ∧ (∀ c ∈ n.elementsLabelled "scale",
          ∃ value, Double.ofText? (Text.trim c.content).toList = some value)
        ∧ ∀ c ∈ n.elementsLabelled "offset",
          ∃ value, Double.ofText? (Text.trim c.content).toList = some value := by
  rw [exists_statements_iff_forall]
  constructor
  · intro h
    refine ⟨fun c hc => ?_, fun c hc => ?_, fun c hc => ?_, fun c hc => ?_⟩
    · exact (Statement.exists_ofText_iff.1 (h _ c hc)).1 rfl
    · exact (Statement.exists_ofText_iff.1 (h _ c hc)).2.1 rfl
    · exact (Statement.exists_ofText_iff.1 (h _ c hc)).2.2.1 rfl
    · exact (Statement.exists_ofText_iff.1 (h _ c hc)).2.2.2 rfl
  · rintro ⟨hposition, htype, hscale, hoffset⟩ label c hc
    apply Statement.exists_ofText_iff.2
    refine ⟨?_, ?_, ?_, ?_⟩
    · rintro rfl
      exact hposition c hc
    · rintro rfl
      exact htype c hc
    · rintro rfl
      exact hscale c hc
    · rintro rfl
      exact hoffset c hc

/-- What statements add up to is what the last of them states. -/
theorem foldl_add {α : Type} {get : Draft → Option α} {pick : Statement → Option α}
    (h : ∀ draft st, get (draft.add st) = (pick st).or (get draft)) (sts : List Statement)
    (draft : Draft) :
    get (sts.foldl Draft.add draft) = (sts.filterMap pick).getLast?.or (get draft) := by
  induction sts generalizing draft with
  | nil => rfl
  | cons st sts ih =>
    rw [List.foldl_cons, ih, h, List.filterMap_cons]
    rcases pick st with - | a
    · rfl
    · rw [List.getLast?_cons]
      rcases (sts.filterMap pick).getLast? with - | b <;> rfl

/-- What is known of a dimension, in the end, is what its element declares. -/
theorem filterMap_statements {α : Type} {label : String} {read : String → Option α}
    {pick : Statement → Option α} {sts : List Statement}
    (hpick : ∀ label' text st, Statement.ofText label' text = .ok st →
      pick st = if label' = label then read text else none)
    (h : n.elements.mapM Statement.ofNode = .ok sts) :
    (sts.filterMap pick).getLast? = declared? n label read := by
  have hsts := mapM_eq_ok_iff.1 h
  have hlabels : ∀ c ∈ n.elements, c.label?.isSome := fun c hc => (List.mem_filter.1 hc).2
  rw [declared?, elementsLabelled_eq]
  congr 1
  clear h
  generalize n.elements = cs at hsts hlabels
  induction hsts with
  | nil => rfl
  | @cons c st cs sts hst _ ih =>
    obtain ⟨hc, hcs⟩ := List.forall_mem_cons.1 hlabels
    obtain ⟨label', hlabel'⟩ := Option.isSome_iff_exists.1 hc
    rw [Statement.ofNode, hlabel'] at hst
    have hhead := hpick label' _ st hst
    rw [List.filterMap_cons, hhead, ih hcs]
    by_cases hsame : label' = label
    · rw [if_pos hsame, List.filter_cons_of_pos (by simp [hlabel', hsame]), List.filterMap_cons]
    · rw [if_neg hsame, List.filter_cons_of_neg (by simp [hlabel', hsame])]

/-! ### The dimension of an element -/

theorem finish_eq_ok_iff {draft : Draft} :
    draft.finish = .ok d ↔ ∃ name position t, draft.name = some name
      ∧ draft.position = some position ∧ draft.type = some t
      ∧ d = { name, position, type := t, description := draft.description, scale := draft.scale,
              offset := draft.offset, isActive := draft.isActive } := by
  rw [Draft.finish]
  rcases draft.name with - | name
  · simp
  rcases draft.position with - | position
  · simp
  rcases draft.type with - | t
  · simp
  · simp [eq_comm]

/-- What is known when all statements have been taken over. -/
theorem draft_eq {sts : List Statement} (h : n.elements.mapM Statement.ofNode = .ok sts) :
    (sts.foldl Draft.add {}).name = declaredName? n
      ∧ (sts.foldl Draft.add {}).position.map (· + 1) = declaredPosition? n
      ∧ (sts.foldl Draft.add {}).type = declaredType? n := by
  have hname : ∀ (draft : Draft) st, (draft.add st).name = st.name?.or draft.name := by
    rintro draft (_ | _ | _ | _ | _ | _ | _ | _ | _) <;> rfl
  have hposition : ∀ (draft : Draft) st, (draft.add st).position.map (· + 1)
      = st.position?.or (draft.position.map (· + 1)) := by
    rintro draft (_ | _ | _ | _ | _ | _ | _ | _ | _) <;> rfl
  have htype : ∀ (draft : Draft) st, (draft.add st).type = st.type?.or draft.type := by
    rintro draft (_ | _ | _ | _ | _ | _ | _ | _ | _) <;> rfl
  refine ⟨?_, ?_, ?_⟩
  · rw [@foldl_add _ (fun draft => draft.name) _ hname, Option.or_none]
    exact filterMap_statements (fun _ _ _ hst => (Statement.stated_of_ofText hst).1) h
  · rw [@foldl_add _ (fun draft => draft.position.map (· + 1)) _ hposition]
    show Option.or _ none = _
    rw [Option.or_none]
    exact filterMap_statements (fun _ _ _ hst => (Statement.stated_of_ofText hst).2.1) h
  · rw [@foldl_add _ (fun draft => draft.type) _ htype, Option.or_none]
    exact filterMap_statements (fun _ _ _ hst => (Statement.stated_of_ofText hst).2.2) h

/-- A dimension has the name, the position and the type that its element declares. -/
theorem declared_of_ofNode (h : ofNode n = .ok d) :
    declaredName? n = some d.name ∧ declaredPosition? n = some (d.position + 1)
      ∧ declaredType? n = some d.type := by
  obtain ⟨sts, hsts, hfinish⟩ := bind_eq_ok_iff.1 h
  obtain ⟨hname, hposition, htype⟩ := draft_eq hsts
  obtain ⟨name, position, t, hdname, hdposition, hdtype, rfl⟩ := finish_eq_ok_iff.1 hfinish
  rw [← hname, ← hposition, ← htype, hdname, hdposition, hdtype]
  exact ⟨rfl, rfl, rfl⟩

theorem exists_declared? {α : Type} {label : String} {read : String → Option α}
    (hne : n.elementsLabelled label ≠ [])
    (hread : ∀ c ∈ n.elementsLabelled label, ∃ a, read (Text.trim c.content) = some a) :
    ∃ a, declared? n label read = some a := by
  obtain ⟨c, hc⟩ := List.exists_mem_of_ne_nil _ hne
  obtain ⟨a, ha⟩ := hread c hc
  have hstated : (n.elementsLabelled label).filterMap (fun c => read (Text.trim c.content)) ≠ [] :=
    List.ne_nil_of_mem (List.mem_filterMap.2 ⟨c, hc, ha⟩)
  exact ⟨_, List.getLast?_eq_some_getLast hstated⟩

theorem elementsLabelled_ne_nil_of_declared? {α : Type} {label : String} {read : String → Option α}
    {a : α} (h : declared? n label read = some a) : n.elementsLabelled label ≠ [] := by
  intro hnil
  rw [declared?, hnil] at h
  cases h

/-- The elements that a dimension can be had from are those that describe one. -/
theorem exists_ofNode_iff : (∃ d, ofNode n = .ok d) ↔ IsDescribed n := by
  constructor
  · rintro ⟨d, h⟩
    obtain ⟨sts, hsts, -⟩ := bind_eq_ok_iff.1 h
    obtain ⟨hposition, htype, hscale, hoffset⟩ := exists_statements_iff.1 ⟨sts, hsts⟩
    obtain ⟨hdname, hdposition, hdtype⟩ := declared_of_ofNode h
    exact ⟨elementsLabelled_ne_nil_of_declared? hdname,
      elementsLabelled_ne_nil_of_declared? hdposition,
      elementsLabelled_ne_nil_of_declared? hdtype, hposition, htype, hscale, hoffset⟩
  · intro h
    obtain ⟨sts, hsts⟩ := exists_statements_iff.2
      ⟨h.position_readable, h.type_readable, h.scale_readable, h.offset_readable⟩
    obtain ⟨hname, hposition, htype⟩ := draft_eq hsts
    obtain ⟨name, hdname⟩ : ∃ name, declaredName? n = some name :=
      exists_declared? h.name fun c _ => ⟨_, rfl⟩
    obtain ⟨position, hdposition⟩ : ∃ position, declaredPosition? n = some position :=
      exists_declared? h.position fun c hc => (h.position_readable c hc).imp' _ fun _ => id
    obtain ⟨t, hdtype⟩ : ∃ t, declaredType? n = some t := exists_declared? h.type h.type_readable
    obtain ⟨slot, hslot, -⟩ := Option.map_eq_some_iff.1 (hposition.trans hdposition)
    exact ⟨_, bind_eq_ok_iff.2 ⟨sts, hsts, finish_eq_ok_iff.2
      ⟨name, slot, t, hname.trans hdname, hslot, htype.trans hdtype, rfl⟩⟩⟩

end Dimension

end PointPatch
