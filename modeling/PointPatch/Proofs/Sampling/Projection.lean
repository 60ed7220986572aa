/-
PointPatch/Proofs/Sampling/Projection.lean

Sampling some of the dimensions.

What is known of a dimension comes from its own columns, and what is advised
for it from no more than that, its type and how many points and patches there
were (`recommend_congr`).  So to take in patches and to keep some of the
dimensions can be done in either order: what has been seen of some dimensions
is what is seen of the patches that have been reduced to these
(`subset_foldlM_update`).

The dimensions are given by their positions on one way and by their names on
the other.  Where names are distinct, both are the same dimensions for all
names that are found (`Schema.Built.position?_of_nameAt?`); of a schema that
has forgotten a name this says nothing (`subset_after_trading`).
-/
import PointPatch.Proofs.Patch.Projection
import PointPatch.Proofs.Sampling.InPlace
import PointPatch.Proofs.Sampling.Totals

namespace PointPatch

namespace Schema

variable {s : Schema}

theorem nameAt?_of_isFilled (hf : s.isFilled = true) (i : Nat) :
    s.nameAt? i = (s.dimensions.map fun d => Text.lowercase d.name)[i]? := by
  rw [nameAt?, dimension?_of_isFilled hf, List.getElem?_map]

/-- Where names are distinct, a name that is found stands for the slot that has it. -/
theorem Built.position?_of_nameAt? (hb : s.Built) (hf : s.isFilled = true)
    (hdistinct : (s.dimensions.map fun d => Text.lowercase d.name).Nodup) {name : String} {i : Nat}
    (hi : s.nameAt? i = some (Text.lowercase name)) (hfound : ∃ j, s.position? name = some j) :
    s.position? name = some i := by
  obtain ⟨j, hj⟩ := hfound
  have hat := hb.nameAt?_of_position? hj
  rw [nameAt?_of_isFilled hf] at hat hi
  obtain ⟨hlt, -⟩ := List.getElem?_eq_some_iff.1 hat
  rw [hj, List.getElem?_inj hlt hdistinct |>.1 (hat.trans hi.symm)]

end Schema

namespace Sampling

variable {z : ColumnCodec} {s t : Sampling} {positions : List Nat} {names : List String}

/-! ### Keeping some of the tallies -/

theorem subset_eq_ok_iff :
    s.subset positions = .ok t ↔ ∃ ts, positions.Forall₂ (fun i tally => s.tallies[i]? = some tally) ts
      ∧ t = { s with tallies := ts } := by
  rw [subset, bind_eq_ok_iff]
  constructor
  · rintro ⟨ts, hts, h⟩
    refine ⟨ts, (mapM_eq_ok_iff.1 hts).imp fun i tally htally => ?_, (Except.ok.inj h).symm⟩
    split at htally
    · rename_i hi
      cases htally
      exact hi
    · cases htally
  · rintro ⟨ts, hts, rfl⟩
    refine ⟨ts, mapM_eq_ok_iff.2 (hts.imp fun i tally htally => ?_), rfl⟩
    rw [htally]

/-- Of a dimension, its type is all that advice depends on. -/
theorem recommend_congr {d d' : Dimension} (h : d'.type = d.type) (tally : Tally) :
    s.recommend d' tally = s.recommend d tally := by
  obtain ⟨⟩ := d
  obtain ⟨⟩ := d'
  cases h
  rfl

variable {ds ds' : List Dimension} {ns ns' : List (Nat × Nat)} {ts : List Tally}

/-- What becomes of the tallies depends on no others that there are. -/
theorem tallies_take (s : Sampling) (ds : List Dimension) (points : Nat) (ns : List (Nat × Nat)) :
    (s.take ds points ns).tallies
      = advise ⟨s.points + points, s.patches + 1, []⟩ ds (addCounts s.tallies ns) := by
  rw [take]
  exact (advise_withTallies _ [] ds _).symm

theorem forall₂_take (points : Nat) (hds : ds.length = s.tallies.length)
    (hns : s.tallies.length = ns.length)
    (hts : positions.Forall₂ (fun i tally => s.tallies[i]? = some tally) ts)
    (hds' : positions.Forall₂ (fun i d' => ∃ d, ds[i]? = some d ∧ d'.type = d.type) ds')
    (hns' : positions.Forall₂ (fun i n => ns[i]? = some n) ns') :
    positions.Forall₂ (fun i tally => (s.take ds points ns).tallies[i]? = some tally)
      (take { s with tallies := ts } ds' points ns').tallies := by
  induction hts generalizing ds' ns' with
  | nil =>
    cases hds'
    exact .nil
  | @cons i tally positions ts htally _ ih =>
    obtain _ | ⟨⟨d, hd, htype⟩, hds'⟩ := hds'
    obtain _ | ⟨hn, hns'⟩ := hns'
    have hrest := ih hds' hns'
    rw [tallies_take { s with tallies := ts }] at hrest
    rw [tallies_take { s with tallies := tally :: ts }, addCounts, advise, recommend_congr htype]
    exact .cons (getElem?_take hds hns hd htally hn) hrest

/-- Taking in counts and keeping some of the tallies is keeping these and taking in their counts,
in any order and as often as there are of each. -/
theorem subset_take (points : Nat) (hds : ds.length = s.tallies.length)
    (hns : s.tallies.length = ns.length) (ht : s.subset positions = .ok t)
    (hds' : positions.Forall₂ (fun i d' => ∃ d, ds[i]? = some d ∧ d'.type = d.type) ds')
    (hns' : positions.Forall₂ (fun i n => ns[i]? = some n) ns') :
    (s.take ds points ns).subset positions = .ok (t.take ds' points ns') := by
  obtain ⟨ts, hts, rfl⟩ := subset_eq_ok_iff.1 ht
  exact subset_eq_ok_iff.2 ⟨_, forall₂_take points hds hns hts hds' hns', rfl⟩

/-! ### Patches and what they are reduced to -/

variable {p q : ColumnPatch}

/-- The counts of columns that have been picked out are picked from the counts. -/
theorem exists_counts_of_subset (hns : p.columns.mapM (counts z) = .ok ns)
    (hq : p.subset q.schema positions = .ok q) :
    ∃ ns', q.columns.mapM (counts z) = .ok ns'
      ∧ positions.Forall₂ (fun i n => ns[i]? = some n) ns' := by
  obtain ⟨columns, summary, hcolumns, -, hparts⟩ := ColumnPatch.subset_eq_ok_iff.1 hq
  obtain rfl : q.columns = columns := by rw [hparts]
  have hpicked : positions.Forall₂ (fun i c => ∃ n, counts z c = .ok n ∧ ns[i]? = some n)
      q.columns := by
    refine hcolumns.imp fun i c hc => ?_
    obtain ⟨n, hn, hcounts⟩ := exists_getElem? (mapM_eq_ok_iff.1 hns) hc
    exact ⟨n, hcounts, hn⟩
  obtain ⟨ns', hcounts, hns'⟩ := forall₂_exists_iff.1 hpicked
  exact ⟨ns', mapM_eq_ok_iff.2 hcounts, hns'⟩

/-- One patch, before or after some of the tallies are kept. -/
theorem exists_update_subset (hp : (Patch.columns p).IsConsistent z)
    (htallies : s.tallies.length = p.schema.slotCount)
    (hpositions : names.Forall₂ (fun name i => p.schema.position? name = some i) positions)
    (hschema : p.schema.subset positions = .ok q.schema)
    (hq : p.subset q.schema positions = .ok q) (ht : s.subset positions = .ok t) :
    ∃ s' t', s.update z p = .ok s' ∧ s'.subset positions = .ok t' ∧ t.update z q = .ok t'
      ∧ s'.tallies.length = s.tallies.length := by
  obtain ⟨raws, hholds⟩ := Patch.agrees_columns_iff.1 hp.agrees
  obtain ⟨ns, hns⟩ := exists_mapM_counts hholds
  obtain ⟨ns', hcounts, hns'⟩ := exists_counts_of_subset hns hq
  obtain ⟨ds, hds, hslots, hcopies⟩ := Schema.exists_copies hp.built hpositions hschema
  -- the dimensions of the reduced patch have the types of those that they are copies of
  have htypes : positions.Forall₂ (fun i d' => ∃ d, p.schema.dimensions[i]? = some d
      ∧ d'.type = d.type) q.schema.dimensions := by
    refine forall₂_comp (fun i d d' hd hcopy => ?_) hds hcopies.flip
    obtain ⟨-, position, byteOffset, rfl⟩ := hcopy
    rw [Schema.dimension?_of_isFilled hp.filled] at hd
    exact ⟨d, hd, rfl⟩
  have hdimensions : p.schema.dimensions.length = s.tallies.length := by
    rw [htallies]
    exact Schema.length_dimensions hp.filled
  have hlength : s.tallies.length = ns.length := by
    rw [← hdimensions, ← hp.length_columns, (mapM_eq_ok_iff.1 hns).length_eq]
  have hkept : q.schema.slotCount = t.tallies.length := by
    obtain ⟨ts, hts, rfl⟩ := subset_eq_ok_iff.1 ht
    rw [Schema.slotCount_of_picks hslots, hts.length_eq]
  have hcount : q.count = p.count := by
    obtain ⟨columns, summary, -, -, hparts⟩ := ColumnPatch.subset_eq_ok_iff.1 hq
    rw [hparts]
  refine ⟨_, t.take q.schema.dimensions q.count ns',
    update_eq_ok_iff.2 ⟨htallies.symm, ns, hns, rfl⟩, ?_,
    update_eq_ok_iff.2 ⟨hkept, ns', hcounts, rfl⟩, length_take _ _ _ _⟩
  rw [hcount]
  exact subset_take p.count hdimensions hlength ht htypes hns'

theorem exists_reduce_update (hp : (Patch.columns p).IsConsistent z)
    (htallies : s.tallies.length = p.schema.slotCount)
    (hpositions : names.Forall₂ (fun name i => p.schema.position? name = some i) positions)
    (ht : s.subset positions = .ok t) :
    ∃ q s' t', (Patch.columns p).reduce names = .ok (.columns q) ∧ s.update z p = .ok s'
      ∧ s'.subset positions = .ok t' ∧ t.update z q = .ok t'
      ∧ s'.tallies.length = p.schema.slotCount := by
  obtain ⟨q, hschema, hq, -⟩ := ColumnPatch.exists_subset_named hp hpositions
  obtain ⟨s', t', hs', hkept, ht', htallies'⟩ :=
    exists_update_subset hp htallies hpositions hschema hq ht
  exact ⟨q, s', t',
    Patch.reduce_eq_ok_iff.2 ⟨p, positions, q.schema, q, rfl, hpositions, hschema, hq, rfl⟩,
    hs', hkept, ht', htallies'.trans htallies⟩

/-- Patches one after another, before or after some of the tallies are kept. -/
theorem exists_foldlM_reduce {schema : Schema} {ps : List ColumnPatch}
    (hps : ∀ p ∈ ps, p.schema = schema ∧ (Patch.columns p).IsConsistent z)
    (htallies : s.tallies.length = schema.slotCount)
    (hpositions : names.Forall₂ (fun name i => schema.position? name = some i) positions)
    (ht : s.subset positions = .ok t) :
    ∃ qs s' t', ps.Forall₂ (fun p q => (Patch.columns p).reduce names = .ok (.columns q)) qs
      ∧ ps.foldlM (update z) s = .ok s' ∧ s'.subset positions = .ok t'
      ∧ qs.foldlM (update z) t = .ok t' := by
  induction ps generalizing s t with
  | nil => exact ⟨[], s, t, .nil, rfl, ht, rfl⟩
  | cons p ps ih =>
    obtain ⟨rfl, hp⟩ := hps p List.mem_cons_self
    obtain ⟨q, s₁, t₁, hq, hs₁, ht₁, hkept, htallies₁⟩ :=
      exists_reduce_update hp htallies hpositions ht
    obtain ⟨qs, s', t', hqs, hs', ht', hkept'⟩ :=
      ih (fun other hother => hps other (List.mem_cons_of_mem p hother)) htallies₁ ht₁
    refine ⟨q :: qs, s', t', .cons hq hqs, ?_, ht', ?_⟩
    · rw [List.foldlM_cons, hs₁]
      exact hs'
    · rw [List.foldlM_cons, hkept]
      exact hkept'

/-- Let the names in a schema without empty slots be distinct, and those at some positions be found.
Then taking in patches one after another and keeping what is at these positions comes to the same
as keeping that first and taking in the patches as they are when reduced to these names: totals,
counters and advice are equal, and none of the operations fails. -/
theorem subset_foldlM_update {schema : Schema} {ps : List ColumnPatch} (hb : schema.Built)
    (hf : schema.isFilled = true)
    (hdistinct : (schema.dimensions.map fun d => Text.lowercase d.name).Nodup)
    (htallies : s.tallies.length = schema.slotCount)
    (hps : ∀ p ∈ ps, p.schema = schema ∧ (Patch.columns p).IsConsistent z)
    (hnames : positions.Forall₂ (fun i name => schema.nameAt? i = some (Text.lowercase name)) names)
    (hfound : ∀ name ∈ names, ∃ i, schema.position? name = some i) :
    ∃ qs s' t t', ps.Forall₂ (fun p q => (Patch.columns p).reduce names = .ok (.columns q)) qs
      ∧ ps.foldlM (update z) s = .ok s' ∧ s'.subset positions = .ok t'
      ∧ s.subset positions = .ok t ∧ qs.foldlM (update z) t = .ok t' := by
  have hpositions : names.Forall₂ (fun name i => schema.position? name = some i) positions :=
    ((List.forall₂_and_left _ _).2 ⟨hfound, hnames.flip⟩).imp fun name i h =>
      hb.position?_of_nameAt? hf hdistinct h.2 h.1
  have htally : ∀ i ∈ positions, ∃ tally, s.tallies[i]? = some tally := by
    intro i hi
    obtain ⟨name, -, hname⟩ := exists_of_mem_right hpositions hi
    obtain ⟨d, hd, -⟩ := hb.exists_dimension?_of_position? hname
    have hlt : i < s.tallies.length := by
      rw [htallies]
      exact Schema.lt_slotCount_of_dimension? hd
    exact ⟨_, List.getElem?_eq_getElem hlt⟩
  obtain ⟨ts, hts⟩ := exists_forall₂ htally
  obtain ⟨qs, s', t', hqs, hs', ht', hkept⟩ :=
    exists_foldlM_reduce hps htallies hpositions (subset_eq_ok_iff.2 ⟨ts, hts, rfl⟩)
  exact ⟨qs, s', _, t', hqs, hs', ht', subset_eq_ok_iff.2 ⟨ts, hts, rfl⟩, hkept⟩

/-- Three points with a column in each mode, taken in twice: of the last dimension, the first and
the last again. -/
theorem subset_foldlM_update_specimen :
    ∃ q s' t t', (Patch.columns .specimen).reduce ["time", "X", "TIME"] = .ok (.columns q)
      ∧ [ColumnPatch.specimen, .specimen].foldlM (update Deflate.codec) (start .specimen) = .ok s'
      ∧ s'.subset [3, 0, 3] = .ok t' ∧ (start .specimen).subset [3, 0, 3] = .ok t
      ∧ [q, q].foldlM (update Deflate.codec) t = .ok t' := by
  have hspecimen : ColumnPatch.specimen.schema = .specimen
      ∧ (Patch.columns .specimen).IsConsistent Deflate.codec := by
    refine ⟨rfl, Schema.specimen_built, by decide, ?_, ?_⟩
    · rintro m ⟨⟩
    · exact Patch.agrees_columns_iff.2 ⟨_, ColumnPatch.specimen_holds⟩
  have hps : ∀ p ∈ [ColumnPatch.specimen, .specimen],
      p.schema = .specimen ∧ (Patch.columns p).IsConsistent Deflate.codec := by
    simp only [List.forall_mem_cons]
    exact ⟨hspecimen, hspecimen, by simp⟩
  have hfound : ∀ name ∈ ["time", "X", "TIME"], ∃ i, Schema.specimen.position? name = some i := by
    simp only [List.forall_mem_cons]
    exact ⟨⟨3, by decide⟩, ⟨0, by decide⟩, ⟨3, by decide⟩, by simp⟩
  have hnames : [3, 0, 3].Forall₂
      (fun i name => Schema.specimen.nameAt? i = some (Text.lowercase name)) ["time", "X", "TIME"] :=
    .cons (by decide) (.cons (by decide) (.cons (by decide) .nil))
  obtain ⟨qs, s', t, t', hqs, hs', ht', ht, hkept⟩ := subset_foldlM_update (s := start .specimen)
    Schema.specimen_built (by decide) (by decide) (by decide) hps hnames hfound
  obtain _ | ⟨hq, _ | ⟨hq', ⟨⟩⟩⟩ := hqs
  cases hq.symm.trans hq'
  exact ⟨_, s', t, t', hq, hs', ht', ht, hkept⟩

/-- Of two dimensions that have traded places one is not found.  What has been seen of it can be
kept, but a patch is not reduced to it. -/
theorem subset_after_trading :
    let s : Sampling := start Patch.traded.schema
    Patch.traded.schema.isFilled = true
      ∧ (Patch.traded.schema.dimensions.map fun d => Text.lowercase d.name).Nodup
      ∧ s.tallies.length = Patch.traded.schema.slotCount
      ∧ (Patch.columns Patch.traded).IsConsistent Deflate.codec
      ∧ Patch.traded.schema.nameAt? 1 = some (Text.lowercase "A")
      ∧ (∃ s' t', s.update Deflate.codec Patch.traded = .ok s' ∧ s'.subset [1] = .ok t')
      ∧ (∃ t, s.subset [1] = .ok t)
      ∧ (Patch.columns Patch.traded).reduce ["A"] = .error (.dimensionNotFound "A") := by
  intro s
  have hconsistent : (Patch.columns Patch.traded).IsConsistent Deflate.codec := by
    refine ⟨(Schema.Built.vacant 2).afterSets _, by decide, ?_, ?_⟩
    · intro m hm
      have hcomputed : Summary.compute Patch.traded.schema [1, 2] = some m := hm
      exact Summary.isOf_compute hcomputed
    · exact .cons ⟨rfl, rfl, _, rfl, rfl⟩ (.cons ⟨rfl, rfl, _, rfl, rfl⟩ .nil)
  exact ⟨by decide, by decide, by decide, hconsistent, by decide, ⟨_, _, rfl, rfl⟩, ⟨_, rfl⟩, rfl⟩

end Sampling

end PointPatch
