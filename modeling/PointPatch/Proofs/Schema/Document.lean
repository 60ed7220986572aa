/-
PointPatch/Proofs/Schema/Document.lean

Schemas that documents describe.

Nothing in the reader of a document looks for slots that have been left empty.
That there are none follows from what it does look for: there are as many
slots as elements of dimensions, each element has to have a slot, and none may
have the slot of another.  So a document is read exactly if each of these
elements describes a dimension and the positions that they declare are the
numbers from one to how many there are, in any order (`exists_ofRoot_iff`).

The order of the elements does not show in the slots, so neither does it in
anything that is made from them.  It does in the list behind the index of
names, but not in what is found there, unless two dimensions share a name
(`exists_ofRoot_of_reordered`).
-/
import PointPatch.Proofs.Schema.Filling
import PointPatch.Proofs.Schema.Statements

namespace PointPatch

open Markup

namespace Schema

variable {root root' : Node} {pcid srid : UInt32} {s s' t : Schema} {ds : List Dimension}

/-- Whether some elements describe some dimensions, one each. -/
def Describe (nodes : List Node) (ds : List Dimension) : Prop :=
  nodes.Forall₂ (fun n d => Dimension.ofNode n = .ok d) ds

/-- Whether the positions that the elements of dimensions declare are the numbers from one to how
many elements there are. -/
def DeclaresPositions (root : Node) : Prop :=
  ((dimensionNodes root).map Dimension.declaredPosition?).Perm
    ((List.range' 1 (dimensionNodes root).length).map some)

/-- Whether no two elements of dimensions declare the same name, in any case. -/
def DeclaresNames (root : Node) : Prop :=
  ((dimensionNodes root).map fun n => (Dimension.declaredName? n).map Text.lowercase).Nodup

/-- Whether two outermost elements are the same but for the order of the elements of
dimensions. -/
structure Reordered (root root' : Node) : Prop where
  label_eq : root'.label? = root.label?
  dimensions : (dimensionNodes root').Perm (dimensionNodes root)
  metadata : root'.elementsLabelled "metadata" = root.elementsLabelled "metadata"

/-! ### Elements as dimensions -/

/-- Elements are placed if they describe dimensions that are. -/
theorem foldlM_placeNode_eq_ok_iff {nodes : List Node} :
    nodes.foldlM placeNode s = .ok s' ↔
      ∃ ds, Describe nodes ds ∧ ds.foldlM place s = .ok s' := by
  induction nodes generalizing s with
  | nil =>
    constructor
    · intro h
      exact ⟨[], .nil, h⟩
    · rintro ⟨_, _ | _, h⟩
      exact h
  | cons n nodes ih =>
    rw [List.foldlM_cons]
    constructor
    · intro h
      obtain ⟨t, hnode, hrest⟩ := bind_eq_ok_iff.1 h
      obtain ⟨d, hd, hplace⟩ := bind_eq_ok_iff.1 hnode
      obtain ⟨ds, hds, hfold⟩ := ih.1 hrest
      exact ⟨d :: ds, .cons hd hds, bind_eq_ok_iff.2 ⟨t, hplace, hfold⟩⟩
    · rintro ⟨_, _ | ⟨hd, hds⟩, h⟩
      obtain ⟨t, hplace, hfold⟩ := bind_eq_ok_iff.1 h
      exact bind_eq_ok_iff.2 ⟨t, bind_eq_ok_iff.2 ⟨_, hd, hplace⟩, ih.2 ⟨_, hds, hfold⟩⟩

/-- What keeps elements from being placed is that one of them cannot be read, or that its position
is not one of an empty slot. -/
theorem cases_of_foldlM_placeNode_eq_error {nodes : List Node} {fault : Fault}
    (h : nodes.foldlM placeNode s = .error fault) :
    (∃ n ∈ nodes, Dimension.ofNode n = .error fault)
      ∨ ∃ position, fault = .positionBeyondCount position s.slotCount
        ∨ fault = .positionTaken position := by
  induction nodes generalizing s with
  | nil => cases h
  | cons n nodes ih =>
    rw [List.foldlM_cons] at h
    rcases hread : Dimension.ofNode n with e | d
    · rw [placeNode, hread] at h
      cases h
      exact .inl ⟨n, List.mem_cons_self, hread⟩
    rcases hplace : s.place d with e | t
    · rw [placeNode, hread, ok_bind, hplace] at h
      cases h
      exact .inr ⟨_, eq_of_place_eq_error hplace⟩
    · rw [placeNode, hread, ok_bind, hplace, ok_bind] at h
      rw [← slotCount_set (place_eq_ok_iff.1 hplace).2.2]
      refine (ih h).imp_left ?_
      rintro ⟨n', hn', hfault⟩
      exact ⟨n', List.mem_cons_of_mem n hn', hfault⟩

theorem map_declaredPosition? {nodes : List Node} (h : Describe nodes ds) :
    nodes.map Dimension.declaredPosition? = (ds.map Dimension.position).map fun p => some (p + 1) := by
  induction h with
  | nil => rfl
  | cons hd _ ih =>
    rw [List.map_cons, ih, (Dimension.declared_of_ofNode hd).2.1]
    rfl

theorem map_declaredName? {nodes : List Node} (h : Describe nodes ds) :
    (nodes.map fun n => (Dimension.declaredName? n).map Text.lowercase)
      = (ds.map fun d => Text.lowercase d.name).map some := by
  induction h with
  | nil => rfl
  | cons hd _ ih =>
    rw [List.map_cons, ih, (Dimension.declared_of_ofNode hd).1]
    rfl

/-! ### Which documents are read -/

theorem slotCount_blank (root : Node) (pcid srid : UInt32) :
    (blank root pcid srid).slotCount = (dimensionNodes root).length := by
  show (List.replicate _ none).length = _
  rw [List.length_replicate]

theorem dimension?_blank (root : Node) (pcid srid : UInt32) (i : Nat) :
    (blank root pcid srid).dimension? i = none := by
  rcases h : (blank root pcid srid).dimension? i with - | d
  · rfl
  · have hslot := Option.join_eq_some_iff.1 h
    cases (List.mem_replicate.1 (List.mem_of_getElem? hslot)).2

/-- The elements of a document fit into its slots if they declare each position once. -/
theorem fits_blank_iff (h : Describe (dimensionNodes root) ds) :
    (blank root pcid srid).Fits ds ↔ DeclaresPositions root := by
  have hlength : (ds.map Dimension.position).length = (dimensionNodes root).length := by
    rw [List.length_map, h.length_eq]
  have hrange : (List.range' 1 (dimensionNodes root).length).map some
      = (List.range (ds.map Dimension.position).length).map fun p => some (p + 1) := by
    rw [hlength, List.range'_eq_map_range, List.map_map]
    refine List.map_congr_left ?_
    intro p _
    exact congrArg some (Nat.add_comm 1 p)
  have hinj : Function.Injective fun p : Nat => some (p + 1) :=
    fun _ _ heq => Nat.succ.inj (Option.some.inj heq)
  rw [DeclaresPositions, map_declaredPosition? h, hrange, List.map_perm_map_iff hinj,
    perm_range_iff, List.forall_mem_map, hlength, ← slotCount_blank root pcid srid]
  constructor
  · exact fun hfits => ⟨hfits.position_lt, hfits.nodup⟩
  · exact fun hpositions => ⟨hpositions.1, hpositions.2, fun d _ => dimension?_blank ..⟩

/-- What a document is read as: its dimensions placed one after another, the coordinates looked
for, and the form taken over that it asks for last. -/
theorem ofRoot_eq_ok_iff (hlabel : root.label? = some rootLabel) :
    ofRoot root pcid srid = .ok s ↔
      ∃ ds filled, Describe (dimensionNodes root) ds
        ∧ ds.foldlM place (blank root pcid srid) = .ok filled
        ∧ s = { filled.resolveXY with target := (targets root).getLast?.getD .rows } := by
  rw [ofRoot, check_eq_ok_iff, bind_eq_ok_iff]
  constructor
  · rintro ⟨-, filled, hfilled, h⟩
    cases h
    obtain ⟨ds, hds, hplace⟩ := foldlM_placeNode_eq_ok_iff.1 hfilled
    exact ⟨ds, filled, hds, hplace, rfl⟩
  · rintro ⟨ds, filled, hds, hplace, rfl⟩
    exact ⟨not_not_intro hlabel, filled, foldlM_placeNode_eq_ok_iff.2 ⟨ds, hds, hplace⟩, rfl⟩

/-- A document is read if its elements describe dimensions and declare each position once. -/
theorem exists_ofRoot_iff (hlabel : root.label? = some rootLabel) :
    (∃ s, ofRoot root pcid srid = .ok s) ↔
      (∀ n ∈ dimensionNodes root, Dimension.IsDescribed n) ∧ DeclaresPositions root := by
  constructor
  · rintro ⟨s, h⟩
    obtain ⟨ds, filled, hds, hplace, -⟩ := (ofRoot_eq_ok_iff hlabel).1 h
    refine ⟨fun n hn => ?_, (fits_blank_iff hds).1 (exists_foldlM_place_iff.1 ⟨filled, hplace⟩)⟩
    obtain ⟨d, -, hd⟩ := exists_of_mem_right hds.flip hn
    exact Dimension.exists_ofNode_iff.1 ⟨d, hd⟩
  · rintro ⟨hdescribed, hpositions⟩
    obtain ⟨ds, hds⟩ : ∃ ds, Describe (dimensionNodes root) ds :=
      exists_forall₂ fun n hn => Dimension.exists_ofNode_iff.2 (hdescribed n hn)
    obtain ⟨filled, hplace⟩ := exists_foldlM_place_iff.2 ((fits_blank_iff hds).2 hpositions)
    exact ⟨_, (ofRoot_eq_ok_iff hlabel).2 ⟨ds, filled, hds, hplace, rfl⟩⟩

/-! ### What a document is read as -/

theorem slots_blank (root : Node) (pcid srid : UInt32) :
    (blank root pcid srid).slots
      = layOut 0 (List.replicate (dimensionNodes root).length none) :=
  (layOut_replicate_none 0 _).symm

/-- The slots of a document that has been read. -/
theorem slots_of_foldlM_place_blank (h : ds.foldlM place (blank root pcid srid) = .ok s) :
    s.slots = layOut 0 (putAll (List.replicate (dimensionNodes root).length none) ds) := by
  rw [slots_of_foldlM_place (slots_blank root pcid srid) h]

/-- Every dimension is in the slot of its position. -/
theorem dimension?_of_place_blank {d : Dimension}
    (h : ds.foldlM place (blank root pcid srid) = .ok s) (hd : d ∈ ds) :
    ∃ byteOffset, s.dimension? d.position = some { d with byteOffset } := by
  have hfits := exists_foldlM_place_iff.1 ⟨s, h⟩
  have hlt : d.position < (List.replicate (dimensionNodes root).length
      (none : Option Dimension)).length := hfits.position_lt d hd
  rw [dimension?, slots_of_foldlM_place_blank h, getElem?_layOut,
    getElem?_putAll hfits.nodup hd hlt]
  exact ⟨_, rfl⟩

/-- No slot is left empty: as many dimensions as there are slots have different ones. -/
theorem isFilled_of_place_blank (hds : Describe (dimensionNodes root) ds)
    (h : ds.foldlM place (blank root pcid srid) = .ok s) : s.isFilled = true := by
  have hfits := exists_foldlM_place_iff.1 ⟨s, h⟩
  have hlength : s.slots.length = ds.length := by
    rw [slots_of_foldlM_place_blank h, length_layOut, length_putAll, List.length_replicate,
      hds.length_eq]
  -- the positions are all there are
  have hpositions : (ds.map Dimension.position).Perm (List.range ds.length) := by
    rw [← List.length_map Dimension.position]
    refine perm_range_iff.2 ⟨List.forall_mem_map.2 fun d hd => ?_, hfits.nodup⟩
    have hlt := hfits.position_lt d hd
    rwa [slotCount_blank, hds.length_eq, ← List.length_map Dimension.position] at hlt
  rw [isFilled, List.all_eq_true]
  intro slot hslot
  obtain ⟨i, hi, rfl⟩ := List.mem_iff_getElem.1 hslot
  have hmem : i ∈ ds.map Dimension.position :=
    hpositions.symm.subset (List.mem_range.2 (hlength ▸ hi))
  obtain ⟨d, hd, rfl⟩ := List.mem_map.1 hmem
  obtain ⟨byteOffset, hdimension⟩ := dimension?_of_place_blank h hd
  rw [dimension?, List.getElem?_eq_getElem hi, Option.join_some] at hdimension
  rw [hdimension]
  rfl

/-! ### Documents in another order -/

theorem blank_of_reordered (h : Reordered root root') (pcid srid : UInt32) :
    blank root' pcid srid = blank root pcid srid := by
  rw [blank, blank, h.dimensions.length_eq]

theorem targets_of_reordered (h : Reordered root root') : targets root' = targets root := by
  rw [targets, targets, h.metadata]

/-- Elements in another order describe the dimensions in another order. -/
theorem exists_describe_of_perm {nodes nodes' : List Node} (hp : nodes'.Perm nodes)
    (h : Describe nodes ds) : ∃ ds', Describe nodes' ds' ∧ ds'.Perm ds :=
  List.perm_comp_forall₂ hp h

/-- Dimensions in another order can be placed too, with the same outcome but for the index. -/
theorem exists_place_blank_of_perm {ds' : List Dimension} (hp : ds'.Perm ds)
    (h : ds.foldlM place (blank root pcid srid) = .ok s) :
    ∃ s', ds'.foldlM place (blank root pcid srid) = .ok s' ∧ s' = { s with names := s'.names } := by
  have hfits := exists_foldlM_place_iff.1 ⟨s, h⟩
  obtain ⟨s', h'⟩ := exists_foldlM_place_iff.2 (hfits.perm hp)
  refine ⟨s', h', ?_⟩
  have hs := slots_of_foldlM_place (slots_blank root pcid srid) h
  have hs' := slots_of_foldlM_place (slots_blank root pcid srid) h'
  rw [putAll_perm _ hp hfits.nodup] at hs'
  rw [hs', hs]

theorem indexed_of_place_blank (hnodup : (ds.map fun d => Text.lowercase d.name).Nodup)
    (h : ds.foldlM place (blank root pcid srid) = .ok s) : s.Indexed := by
  have hnone : ∀ i, (blank root pcid srid).nameAt? i = none := by
    intro i
    rw [nameAt?, dimension?_blank]
    rfl
  refine indexed_of_foldlM_place ?_ hnodup ?_ h
  · intro i name hname
    rw [hnone] at hname
    cases hname
  · intro d _ i hname
    rw [hnone] at hname
    cases hname

theorem built_blank (root : Node) (pcid srid : UInt32) : (blank root pcid srid).Built :=
  (Built.vacant (dimensionNodes root).length).label pcid srid .rows

/-- Where every dimension is found by its name, names stand for the slots of the dimensions that
have them, however the index came about. -/
theorem position?_eq_of_slots_eq (hs : s.Indexed) (hs' : s'.Indexed) (hb : s.Built) (hb' : s'.Built)
    (hslots : s'.slots = s.slots) (name : String) : s'.position? name = s.position? name := by
  have hnames : ∀ i, s'.nameAt? i = s.nameAt? i := by
    intro i
    rw [nameAt?, nameAt?, dimension?, dimension?, hslots]
  apply Option.ext
  intro i
  rw [hs.position?_eq_some_iff hb, hs'.position?_eq_some_iff hb', hnames]

/-- A document with its dimensions in another order is read as well, as the same schema but for
the list behind the index; where no name is declared twice, names stand for the same slots. -/
theorem exists_ofRoot_of_reordered (hlabel : root.label? = some rootLabel) (h : Reordered root root')
    (hs : ofRoot root pcid srid = .ok s) :
    ∃ s', ofRoot root' pcid srid = .ok s' ∧ s' = { s with names := s'.names }
      ∧ (DeclaresNames root → ∀ name, s'.position? name = s.position? name) := by
  obtain ⟨ds, filled, hds, hplace, rfl⟩ := (ofRoot_eq_ok_iff hlabel).1 hs
  obtain ⟨ds', hds', hp⟩ := exists_describe_of_perm h.dimensions hds
  obtain ⟨filled', hplace', hsame⟩ := exists_place_blank_of_perm hp hplace
  rw [← blank_of_reordered h] at hplace'
  refine ⟨_, (ofRoot_eq_ok_iff (h.label_eq.trans hlabel)).2 ⟨ds', filled', hds', hplace', rfl⟩,
    ?_, ?_⟩
  · rw [targets_of_reordered h, hsame]
    rfl
  · intro hnames name
    rw [DeclaresNames, map_declaredName? hds,
      List.nodup_map_iff fun _ _ => Option.some.inj] at hnames
    have hnames' : (ds'.map fun d => Text.lowercase d.name).Nodup := (hp.map _).nodup_iff.2 hnames
    have hslots : filled'.slots = filled.slots := by rw [hsame]
    exact position?_eq_of_slots_eq (indexed_of_place_blank hnames hplace)
      (indexed_of_place_blank hnames' hplace') (built_of_foldlM_place (built_blank ..) hplace)
      (built_of_foldlM_place (built_blank ..) hplace') hslots name

/-! ### The schema of a document -/

/-- What a schema has of the outermost element that it was read from. -/
structure Holds (root : Node) (pcid srid : UInt32) (s : Schema) : Prop where
  pcid_eq : s.pcid = pcid
  srid_eq : s.srid = srid
  slotCount_eq : s.slotCount = (dimensionNodes root).length
  isFilled : s.isFilled = true
  dimension : ∀ n ∈ dimensionNodes root, ∀ i, Dimension.declaredPosition? n = some (i + 1) →
    ∃ d byteOffset, Dimension.ofNode n = .ok d ∧ s.dimension? i = some { d with byteOffset }

theorem holds_of_ofRoot (hlabel : root.label? = some rootLabel)
    (hs : ofRoot root pcid srid = .ok s) : s.Holds root pcid srid := by
  obtain ⟨ds, filled, hds, hplace, rfl⟩ := (ofRoot_eq_ok_iff hlabel).1 hs
  have hfilled := slots_of_foldlM_place (slots_blank root pcid srid) hplace
  have hslots : filled.isFilled = true := isFilled_of_place_blank hds hplace
  refine ⟨congrArg Schema.pcid hfilled, congrArg Schema.srid hfilled, ?_, hslots, ?_⟩
  · show filled.slots.length = _
    rw [slots_of_foldlM_place_blank hplace, length_layOut, length_putAll, List.length_replicate]
  · intro n hn i hposition
    obtain ⟨d, hd, hread⟩ := exists_of_mem_right hds.flip hn
    have hdeclared := (Dimension.declared_of_ofNode hread).2.1
    obtain rfl : d.position = i := Nat.succ.inj (Option.some.inj (hdeclared.symm.trans hposition))
    obtain ⟨byteOffset, hdimension⟩ := dimension?_of_place_blank hplace hd
    exact ⟨d, byteOffset, hread, hdimension⟩

theorem cases_of_ofRoot_eq_error {fault : Fault} (hlabel : root.label? = some rootLabel)
    (h : ofRoot root pcid srid = .error fault) :
    (∃ n ∈ dimensionNodes root, Dimension.ofNode n = .error fault)
      ∨ ∃ position, fault = .positionBeyondCount position (dimensionNodes root).length
        ∨ fault = .positionTaken position := by
  rw [← slotCount_blank root pcid srid]
  apply cases_of_foldlM_placeNode_eq_error
  rw [ofRoot, if_neg (not_not_intro hlabel)] at h
  rcases hfold : (dimensionNodes root).foldlM placeNode (blank root pcid srid) with e | filled
  · rw [hfold] at h
    cases h
    rfl
  · rw [hfold] at h
    cases h

/-- A document is read exactly if each of its elements of dimensions describes one and they declare
the positions from one to how many they are. Then every slot is filled, each with the element that
declares its position, and the order of the elements makes no difference, unless two of them share
a name, and then only to what is found by that name. Otherwise an element could not be read or
declared a position that is none or taken; setting a dimension is never what fails. -/
theorem ofRoot_complete (hlabel : root.label? = some rootLabel) (pcid srid : UInt32) :
    (∀ document, documentRoot document = .ok root →
        ofDocument document pcid srid = ofRoot root pcid srid)
      ∧ ((∃ s, ofRoot root pcid srid = .ok s)
        ↔ (∀ n ∈ dimensionNodes root, Dimension.IsDescribed n) ∧ DeclaresPositions root)
      ∧ (∀ s, ofRoot root pcid srid = .ok s → s.Holds root pcid srid
          ∧ ∀ root', Reordered root root' → ∃ s', ofRoot root' pcid srid = .ok s'
            ∧ s' = { s with names := s'.names }
            ∧ (DeclaresNames root → ∀ name, s'.position? name = s.position? name))
      ∧ ∀ fault, ofRoot root pcid srid = .error fault →
          (∃ n ∈ dimensionNodes root, Dimension.ofNode n = .error fault)
            ∨ ∃ position, fault = .positionBeyondCount position (dimensionNodes root).length
              ∨ fault = .positionTaken position :=
  ⟨fun _ hdocument => by rw [ofDocument, hdocument, ok_bind], exists_ofRoot_iff hlabel,
    fun _ hs => ⟨holds_of_ofRoot hlabel hs, fun _ h => exists_ofRoot_of_reordered hlabel h hs⟩,
    fun _ h => cases_of_ofRoot_eq_error hlabel h⟩

/-- An element with a text. -/
def specimenField (label text : String) : Node := .element label [] [.text text]

/-- An element that describes a dimension. -/
def specimenDimension (position name type : String) : Node :=
  .element "dimension" [] [specimenField "position" position, specimenField "name" name,
    specimenField "interpretation" type]

/-- A document of two dimensions, the second in front of the first. -/
def specimenRoot : Node :=
  .element rootLabel [] [specimenDimension "2" "Y" "int32_t", specimenDimension "1" "X" "int16_t"]

/-- The document of the same dimensions in the order of their positions. -/
def specimenSorted : Node :=
  .element rootLabel [] [specimenDimension "1" "X" "int16_t", specimenDimension "2" "Y" "int32_t"]

/-- A document is read whose dimensions do not stand in the order of their positions, and gives
the same schema as one where they do. -/
theorem ofRoot_complete_specimen :
    ∃ s s', ofRoot specimenRoot 7 0 = .ok s ∧ s.Holds specimenRoot 7 0
      ∧ (s.dimensions.map fun d => (d.name, d.byteOffset)) = [("X", 0), ("Y", 2)]
      ∧ ofRoot specimenSorted 7 0 = .ok s' ∧ s' = { s with names := s'.names }
      ∧ ∀ name, s'.position? name = s.position? name := by
  have hreordered : Reordered specimenRoot specimenSorted := ⟨rfl, List.Perm.swap _ _ _, rfl⟩
  have hnames : DeclaresNames specimenRoot := by
    unfold DeclaresNames
    decide
  obtain ⟨-, -, hread, -⟩ := ofRoot_complete (rfl : specimenRoot.label? = some rootLabel) 7 0
  obtain ⟨hholds, horder⟩ := hread _ rfl
  obtain ⟨s', hs', hsame, hfound⟩ := horder _ hreordered
  exact ⟨_, s', rfl, hholds, by rfl, hs', hsame, hfound hnames⟩

end Schema

end PointPatch
