/-
PointPatch/Proofs/Sampling/Totals.lean

What a sampling knows of the patches that it has taken in.

The sampling of some patches has a closed form (`total`): its counters are sums
over the patches, for every dimension of the runs and of the shared bits of
its raw columns, and its advice follows from these sums.  Taking in one more
patch leads from the closed form of some patches to that of one more
(`update_total`); that the advice has been written anew with every patch, from
sums that were smaller, does not show.  So the order of the patches has no part
in it, and neither have the modes that their columns are stored in
(`foldlM_update_totals`).
-/
import PointPatch.Proofs.Patch.Compression
import Mathlib.Algebra.BigOperators.Group.List.Basic
import Mathlib.Data.List.Induction

namespace PointPatch

attribute [ext] Sampling

namespace ColumnPatch

variable {z : ColumnCodec} {p q : ColumnPatch} {raws : List Column}

/-- The runs and the shared bits of the raw form of the column in a place; none where there is no
column, or one that cannot be decoded. -/
def countsAt (z : ColumnCodec) (p : ColumnPatch) (i : Nat) : Nat × Nat :=
  match p.columns[i]? with
  | some c => (Sampling.counts z c).toOption.getD (0, 0)
  | none => (0, 0)

/-- Two patches have the same values, each column in any mode. -/
structure SameValues (z : ColumnCodec) (p q : ColumnPatch) : Prop where
  schema_eq : q.schema = p.schema
  count_eq : q.count = p.count
  decode_eq : p.columns.Forall₂ (fun c c' => c'.decode z = c.decode z) q.columns

theorem SameValues.refl (z : ColumnCodec) (p : ColumnPatch) : p.SameValues z p :=
  ⟨rfl, rfl, List.forall₂_same.2 fun _ _ => rfl⟩

/-- A patch has the same values once its columns have been decoded. -/
theorem sameValues_of_decode (h : p.decode z = .ok q) : p.SameValues z q := by
  obtain ⟨raws, hraws, h⟩ := bind_eq_ok_iff.1 h
  cases h
  refine ⟨rfl, rfl, (mapM_eq_ok_iff.1 hraws).imp fun c raw hraw => ?_⟩
  obtain ⟨bytes, -, rfl⟩ := Column.decode_eq_ok_iff.1 hraw
  exact (Column.decode_raw c.type c.count bytes).trans hraw.symm

end ColumnPatch

namespace Sampling

variable {z : ColumnCodec} {s s' : Sampling} {schema : Schema} {p q : ColumnPatch}
  {ps qs : List ColumnPatch} {raws : List Column}

/-! ### Taking in a patch -/

theorem update_eq_ok_iff :
    s.update z p = .ok s' ↔ p.schema.slotCount = s.tallies.length
      ∧ ∃ ns, p.columns.mapM (counts z) = .ok ns ∧ s' = s.take p.schema.dimensions p.count ns := by
  rw [update, check_eq_ok_iff, not_not, bind_eq_ok_iff]
  refine and_congr_right fun _ => exists_congr fun ns => and_congr_right fun _ => ?_
  exact ⟨fun h => (Except.ok.inj h).symm, fun h => by rw [h]; rfl⟩

/-- Counts are taken from what a column decodes to. -/
theorem counts_congr {c c' : Column} (h : c'.decode z = c.decode z) : counts z c' = counts z c := by
  rw [counts, counts, h]

/-- The modes of the columns have no part in how a patch is taken in. -/
theorem update_congr (h : p.SameValues z q) (s : Sampling) : s.update z q = s.update z p := by
  have hcounts : q.columns.mapM (counts z) = p.columns.mapM (counts z) := by
    have hcolumns := h.decode_eq
    generalize p.columns = cs at hcolumns
    generalize q.columns = cs' at hcolumns
    induction hcolumns with
    | nil => rfl
    | cons hdecode _ ih => rw [List.mapM_cons, List.mapM_cons, counts_congr hdecode, ih]
  rw [update, update, h.schema_eq, h.count_eq, hcounts]

theorem addCounts_eq_zipWith {ts : List Tally} {ns : List (Nat × Nat)} (h : ts.length = ns.length) :
    addCounts ts ns = List.zipWith
      (fun t n => { t with runs := t.runs + n.1, sharedBits := t.sharedBits + n.2 }) ts ns := by
  induction ts generalizing ns with
  | nil => cases ns <;> rfl
  | cons t ts ih =>
    cases ns with
    | nil => cases h
    | cons n ns => exact congrArg (List.cons _) (ih (Nat.succ.inj h))

theorem advise_eq_zipWith {ds : List Dimension} {ts : List Tally} (h : ds.length = ts.length) :
    s.advise ds ts = List.zipWith (fun d t => { t with advice := s.recommend d t }) ds ts := by
  induction ts generalizing ds with
  | nil => cases ds <;> rfl
  | cons t ts ih =>
    cases ds with
    | nil => cases h
    | cons d ds => exact congrArg (List.cons _) (ih (Nat.succ.inj h))

theorem exists_counts_of_decode {c raw : Column} (h : c.decode z = .ok raw) :
    ∃ n, counts z c = .ok n := by
  obtain ⟨bytes, -, rfl⟩ := Column.decode_eq_ok_iff.1 h
  have hmode : (⟨c.type, c.count, .raw, bytes⟩ : Column).mode = .raw := rfl
  obtain ⟨n, hn⟩ := exists_counts (z := z) hmode
  exact ⟨n, (counts_congr (h.trans (Column.decode_raw c.type c.count bytes).symm)).trans hn⟩

theorem exists_mapM_counts (h : p.Holds z raws) : ∃ ns, p.columns.mapM (counts z) = .ok ns := by
  have hcolumn : ∀ c ∈ p.columns, ∃ n, counts z c = .ok n := by
    intro c hc
    obtain ⟨raw, -, hraw⟩ := exists_of_mem_right h.decode.flip hc
    exact exists_counts_of_decode hraw
  obtain ⟨ns, hns⟩ := exists_forall₂ hcolumn
  exact ⟨ns, mapM_eq_ok_iff.2 hns⟩

theorem countsAt_eq {ns : List (Nat × Nat)} (hns : p.columns.mapM (counts z) = .ok ns) {i : Nat}
    {n : Nat × Nat} (hn : ns[i]? = some n) : p.countsAt z i = n := by
  obtain ⟨c, hc, hcounts⟩ := exists_getElem? (mapM_eq_ok_iff.1 hns).flip hn
  rw [ColumnPatch.countsAt, hc]
  show (counts z c).toOption.getD (0, 0) = n
  rw [hcounts]
  rfl

/-- What becomes of the tally of a dimension when a patch is taken in. -/
theorem getElem?_take {ds : List Dimension} {points : Nat} {ns : List (Nat × Nat)}
    (hds : ds.length = s.tallies.length) (hns : s.tallies.length = ns.length) {i : Nat}
    {d : Dimension} {t : Tally} {n : Nat × Nat} (hd : ds[i]? = some d) (ht : s.tallies[i]? = some t)
    (hn : ns[i]? = some n) :
    (s.take ds points ns).tallies[i]? = some
      { runs := t.runs + n.1
        sharedBits := t.sharedBits + n.2
        advice := recommend ⟨s.points + points, s.patches + 1, []⟩ d
          { runs := t.runs + n.1, sharedBits := t.sharedBits + n.2 } } := by
  have hadded : ds.length = (addCounts s.tallies ns).length := by
    rw [length_addCounts, hds]
  rw [take]
  dsimp only
  rw [advise_eq_zipWith hadded, addCounts_eq_zipWith hns, List.getElem?_zipWith,
    List.getElem?_zipWith, hd, ht, hn]
  rfl

/-! ### The closed form -/

/-- What is known of the dimension in a place once some patches have been taken in. -/
def totalTally (z : ColumnCodec) (ps : List ColumnPatch) (i : Nat) (d : Dimension) : Tally :=
  let t : Tally :=
    { runs := (ps.map fun p => (p.countsAt z i).1).sum
      sharedBits := (ps.map fun p => (p.countsAt z i).2).sum }
  let s : Sampling := ⟨(ps.map fun p => p.count).sum, ps.length, []⟩
  { t with advice := if ps = [] then .raw else s.recommend d t }

/-- The sampling of a schema that has taken in some patches. -/
def total (z : ColumnCodec) (schema : Schema) (ps : List ColumnPatch) : Sampling where
  points := (ps.map fun p => p.count).sum
  patches := ps.length
  tallies := schema.dimensions.mapIdx (totalTally z ps)

theorem length_tallies_total (hf : schema.isFilled = true) (ps : List ColumnPatch) :
    (total z schema ps).tallies.length = schema.slotCount := by
  rw [total, List.length_mapIdx, Schema.length_dimensions hf]

theorem total_nil (hf : schema.isFilled = true) : total z schema [] = start schema := by
  have htallies : schema.dimensions.mapIdx (totalTally z [])
      = List.replicate schema.slotCount {} := by
    rw [List.eq_replicate_iff, List.length_mapIdx, Schema.length_dimensions hf]
    refine ⟨rfl, ?_⟩
    intro t ht
    obtain ⟨i, hi, rfl⟩ := List.mem_mapIdx.1 ht
    rfl
  rw [total, htallies]
  rfl

/-- One more patch adds its counts to the sums, and the advice follows from the new sums alone. -/
theorem totalTally_concat (z : ColumnCodec) (ps : List ColumnPatch) (p : ColumnPatch) (i : Nat)
    (d : Dimension) :
    totalTally z (ps ++ [p]) i d =
      { runs := (totalTally z ps i d).runs + (p.countsAt z i).1
        sharedBits := (totalTally z ps i d).sharedBits + (p.countsAt z i).2
        advice := recommend ⟨(ps.map fun p => p.count).sum + p.count, ps.length + 1, []⟩ d
          { runs := (totalTally z ps i d).runs + (p.countsAt z i).1
            sharedBits := (totalTally z ps i d).sharedBits + (p.countsAt z i).2 } } := by
  have hne : ps ++ [p] ≠ [] := List.concat_ne_nil p ps
  rw [totalTally]
  simp only [if_neg hne, List.map_append, List.sum_append, List.map_singleton, List.sum_singleton,
    List.length_append, List.length_singleton]
  rfl

/-- Taking in one more patch. -/
theorem update_total (hf : schema.isFilled = true) (hp : p.schema = schema) (h : p.Holds z raws) :
    (total z schema ps).update z p = .ok (total z schema (ps ++ [p])) := by
  subst hp
  have hlength := Schema.length_dimensions hf
  have htallies := length_tallies_total (z := z) hf ps
  obtain ⟨ns, hns⟩ := exists_mapM_counts h
  have hcolumns : ns.length = p.schema.dimensions.length := by
    rw [← (mapM_eq_ok_iff.1 hns).length_eq, h.decode.length_eq, h.fits.length_eq]
  refine update_eq_ok_iff.2 ⟨htallies.symm, ns, hns, ?_⟩
  apply Sampling.ext
  · show ((ps ++ [p]).map fun p => p.count).sum = (ps.map fun p => p.count).sum + p.count
    rw [List.map_append, List.sum_append, List.map_singleton, List.sum_singleton]
  · show (ps ++ [p]).length = ps.length + 1
    exact List.length_append
  apply List.ext_getElem?
  intro i
  rw [total, List.getElem?_mapIdx]
  rcases hd : p.schema.dimensions[i]? with - | d
  · -- there is no such dimension
    have hi : p.schema.dimensions.length ≤ i := List.getElem?_eq_none_iff.1 hd
    exact (List.getElem?_eq_none (by rw [length_take]; omega)).symm
  · have hi : i < p.schema.dimensions.length := (List.getElem?_eq_some_iff.1 hd).1
    have hn : ns[i]? = some (p.countsAt z i) := by
      obtain ⟨n, hn⟩ : ∃ n, ns[i]? = some n := ⟨_, List.getElem?_eq_getElem (by omega)⟩
      rw [hn, countsAt_eq hns hn]
    have ht : (total z p.schema ps).tallies[i]? = some (totalTally z ps i d) := by
      rw [total, List.getElem?_mapIdx, hd]
      rfl
    rw [getElem?_take (by omega) (by omega) hd ht hn, Option.map_some, totalTally_concat]
    rfl

/-- Patches that are taken in one after another lead to the closed form. -/
theorem foldlM_update_eq_total (hf : schema.isFilled = true)
    (hps : ∀ p ∈ ps, p.schema = schema ∧ ∃ raws, p.Holds z raws) :
    ps.foldlM (update z) (start schema) = .ok (total z schema ps) := by
  induction ps using List.reverseRecOn with
  | nil =>
    rw [total_nil hf]
    rfl
  | append_singleton ps p ih =>
    obtain ⟨hp, raws, hholds⟩ := hps p List.mem_concat_self
    have hfirst := ih fun q hq => hps q (List.mem_append_left _ hq)
    rw [List.foldlM_append, hfirst, ok_bind, List.foldlM_cons, update_total hf hp hholds]
    rfl

theorem total_perm (h : ps.Perm qs) : total z schema ps = total z schema qs := by
  have hnil : (ps = []) = (qs = []) := by
    rw [← List.length_eq_zero_iff, ← List.length_eq_zero_iff, h.length_eq]
  have htally : totalTally z ps = totalTally z qs := by
    funext i d
    simp only [totalTally, (h.map _).sum_eq, h.length_eq, hnil]
  rw [total, total, htally, (h.map _).sum_eq, h.length_eq]

theorem foldlM_update_congr (h : ps.Forall₂ (ColumnPatch.SameValues z) qs) (s : Sampling) :
    qs.foldlM (update z) s = ps.foldlM (update z) s := by
  induction h generalizing s with
  | nil => rfl
  | cons hpq _ ih =>
    rw [List.foldlM_cons, List.foldlM_cons, update_congr hpq]
    exact congrArg _ (funext ih)

/-- The counts of a column are those of what it decodes to. -/
theorem exists_countsAt (h : p.Holds z raws) {i : Nat} (hi : i < p.schema.dimensions.length) :
    ∃ c raw, p.columns[i]? = some c ∧ c.decode z = .ok raw
      ∧ raw.runCount = .ok (p.countsAt z i).1 ∧ raw.sharedBitCount = .ok (p.countsAt z i).2 := by
  obtain ⟨ns, hns⟩ := exists_mapM_counts h
  have hcounts := mapM_eq_ok_iff.1 hns
  have hlength : p.columns.length = p.schema.dimensions.length := by
    rw [h.decode.length_eq, h.fits.length_eq]
  obtain ⟨n, hn, hc⟩ := exists_getElem? hcounts (List.getElem?_eq_getElem (hlength ▸ hi))
  obtain ⟨raw, hraw, hruns, hbits⟩ := counts_eq_ok_iff.1 hc
  rw [countsAt_eq hns hn]
  exact ⟨_, raw, List.getElem?_eq_getElem _, hraw, hruns, hbits⟩

/-- The sampling counts the points and the patches; for every dimension it has the sums of the runs
and of the shared bits of its raw columns, and the advice that follows from the sums. -/
structure IsTotalOf (z : ColumnCodec) (schema : Schema) (ps : List ColumnPatch) (s : Sampling) :
    Prop where
  points_eq : s.points = (ps.map fun p => p.count).sum
  patches_eq : s.patches = ps.length
  length_tallies : s.tallies.length = schema.slotCount
  sums_eq : ∀ (i : Nat) (t : Tally), s.tallies[i]? = some t →
    ∃ ns : List (Nat × Nat),
      ps.Forall₂ (fun p n => ∃ c raw : Column, p.columns[i]? = some c ∧ c.decode z = .ok raw
        ∧ raw.runCount = .ok n.1 ∧ raw.sharedBitCount = .ok n.2) ns
      ∧ t.runs = (ns.map Prod.fst).sum ∧ t.sharedBits = (ns.map Prod.snd).sum
  advice_eq : ∀ (i : Nat) (t : Tally) (d : Dimension), s.tallies[i]? = some t →
    schema.dimensions[i]? = some d → t.advice = if ps = [] then .raw else s.recommend d t

theorem isTotalOf_total (hf : schema.isFilled = true)
    (hps : ∀ p ∈ ps, p.schema = schema ∧ ∃ raws, p.Holds z raws) :
    IsTotalOf z schema ps (total z schema ps) where
  points_eq := rfl
  patches_eq := rfl
  length_tallies := length_tallies_total hf ps
  sums_eq := by
    intro i t ht
    rw [total, List.getElem?_mapIdx] at ht
    obtain ⟨d, hd, rfl⟩ := Option.map_eq_some_iff.1 ht
    refine ⟨ps.map fun p => p.countsAt z i, ?_, ?_, ?_⟩
    · refine List.forall₂_map_right_iff.2 (List.forall₂_same.2 fun p hp => ?_)
      obtain ⟨hschema, raws, hraws⟩ := hps p hp
      refine exists_countsAt hraws ?_
      rw [hschema]
      exact (List.getElem?_eq_some_iff.1 hd).1
    · rw [List.map_map]
      rfl
    · rw [List.map_map]
      rfl
  advice_eq := by
    intro i t d ht hd
    rw [total, List.getElem?_mapIdx, hd] at ht
    obtain rfl := Option.some.inj ht
    rfl

/-- Patches of a schema whose columns can be decoded are all taken in, and the sampling is their
total.  The same comes of the patches in any order, and with their columns in any modes. -/
theorem foldlM_update_totals (hf : schema.isFilled = true) (hschema : ∀ p ∈ ps, p.schema = schema)
    (hholds : ∀ p ∈ ps, ∃ raws, p.Holds z raws) :
    ∃ s, ps.foldlM (update z) (start schema) = .ok s ∧ IsTotalOf z schema ps s
      ∧ ∀ ps' qs, ps.Perm ps' → ps'.Forall₂ (ColumnPatch.SameValues z) qs →
          qs.foldlM (update z) (start schema) = .ok s := by
  have hps : ∀ p ∈ ps, p.schema = schema ∧ ∃ raws, p.Holds z raws :=
    fun p hp => ⟨hschema p hp, hholds p hp⟩
  refine ⟨total z schema ps, foldlM_update_eq_total hf hps, isTotalOf_total hf hps, ?_⟩
  intro ps' qs hperm hsame
  have hps' : ∀ p ∈ ps', p.schema = schema ∧ ∃ raws, p.Holds z raws :=
    fun p hp => hps p (hperm.mem_iff.2 hp)
  rw [foldlM_update_congr hsame, foldlM_update_eq_total hf hps', total_perm hperm]

/-- A point whose values are all zero. -/
def origin : ColumnPatch where
  schema := .specimen
  count := 1
  columns :=
    [⟨.int32, 1, .raw, [0, 0, 0, 0]⟩, ⟨.int32, 1, .raw, [0, 0, 0, 0]⟩, ⟨.uint16, 1, .raw, [0, 0]⟩,
     ⟨.float64, 1, .raw, [0, 0, 0, 0, 0, 0, 0, 0]⟩]

/-- Two patches are taken in, in either order, and with all columns raw as with one in each
mode. -/
theorem foldlM_update_totals_specimen :
    ∃ s, [ColumnPatch.specimen, origin].foldlM (update Deflate.codec) (start .specimen) = .ok s
      ∧ s.points = 4 ∧ s.patches = 2
      ∧ [origin, { ColumnPatch.specimen with columns := ColumnPatch.specimenRaw }].foldlM
          (update Deflate.codec) (start .specimen) = .ok s := by
  have horigin : origin.Holds Deflate.codec origin.columns :=
    ⟨.cons rfl (.cons rfl (.cons rfl (.cons rfl .nil))),
      .cons ⟨rfl, rfl, rfl⟩
        (.cons ⟨rfl, rfl, rfl⟩ (.cons ⟨rfl, rfl, rfl⟩ (.cons ⟨rfl, rfl, rfl⟩ .nil)))⟩
  have hschema : ∀ p ∈ [ColumnPatch.specimen, origin], p.schema = .specimen := by
    simp only [List.forall_mem_cons]
    exact ⟨rfl, rfl, by simp⟩
  have hholds : ∀ p ∈ [ColumnPatch.specimen, origin], ∃ raws, p.Holds Deflate.codec raws := by
    simp only [List.forall_mem_cons]
    exact ⟨⟨_, ColumnPatch.specimen_holds⟩, ⟨_, horigin⟩, by simp⟩
  obtain ⟨s, hs, htotal, hsame⟩ := foldlM_update_totals (by decide) hschema hholds
  have hraw := ColumnPatch.sameValues_of_decode ColumnPatch.specimen_holds.decode_eq
  exact ⟨s, hs, htotal.points_eq, htotal.patches_eq,
    hsame _ _ (.swap _ _ []) (.cons (.refl _ origin) (.cons hraw .nil))⟩

end Sampling

end PointPatch
