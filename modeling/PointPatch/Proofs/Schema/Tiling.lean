/-
PointPatch/Proofs/Schema/Tiling.lean

Fields that do not get in each other's way.

`Tiled` says that the fields of a ledger, in slot order, take the places of a
row from the first to the last, each place once, and each field as many as its
type asks for.  Every ledger that can be had is tiled, in whatever order its
slots were filled, replaced or picked, and whatever came with the dimensions
(`tiled_of_built`).

From the tiling alone it follows that a field lies within the row
(`Tiled.stop_le`) and shares no place with another (`Tiled.disjoint`).  So a
value that is written to one field leaves the bytes of all others alone
(`Tiled.leaves_write`), whether it is written to a row or to a point.
-/
import PointPatch.Point
import PointPatch.Proofs.Schema.Ledger
import PointPatch.Proofs.Schema.Slots
import Mathlib.Data.List.Nodup

namespace PointPatch

/-- Whether a row is as long as another one and has the same bytes in the places of a field. -/
structure Field.Leaves (f : Field) (row row' : List UInt8) : Prop where
  length_eq : row'.length = row.length
  bytes_eq : ∀ k ∈ f.places, row'[k]? = row[k]?

/-- Writing to a filled slot of a point succeeds. -/
theorem Point.setAt_eq_ok {p : Point} {i : Nat} {d : Dimension}
    (hd : p.schema.dimension? i = some d) (v : Double) : p.setAt i v = .ok (p.withValue d v) := by
  rw [setAt, Schema.dimensionAt_eq_ok hd]
  rfl

namespace Ledger

variable {l : Ledger} {f g : Field} {i j : Nat} {row : List UInt8}

/-- Whether the fields of a ledger, in slot order, take each place of a row exactly once, from the
first to the last. -/
structure Tiled (l : Ledger) : Prop where
  width_eq : ∀ f ∈ l.fields, f.width = f.dimension.type.size
  position_eq : ∀ i f, l.field? i = some f → f.dimension.position = i
  places_eq : l.fields.flatMap Field.places = List.range l.size

/-! ### Every ledger is tiled -/

/-- Fields that lie one after another take all places from the start of the first to the end of
the last. -/
theorem flatMap_places {start : Nat} {ds : List Dimension} (h : Schema.Placed start ds) :
    (ds.map Field.of).flatMap Field.places = List.range' start (Schema.width ds) := by
  induction ds generalizing start with
  | nil => rfl
  | cons d ds ih =>
    obtain ⟨rfl, hds⟩ := h
    rw [List.map_cons, List.flatMap_cons, ih hds, Schema.width_cons, ← List.range'_append_1]
    rfl

theorem tiled_of_built {s : Schema} (hs : s.Built) : (of s).Tiled where
  width_eq := by
    rw [fields_of]
    exact List.forall_mem_map.2 fun d _ => rfl
  position_eq := by
    intro i f hf
    rw [field?_of] at hf
    obtain ⟨d, hd, rfl⟩ := Option.map_eq_some_iff.1 hf
    exact hs.position_eq hd
  places_eq := by
    rw [fields_of, flatMap_places hs.placed, Schema.width_dimensions, List.range_eq_range']
    rfl

/-! ### What a tiling says of fields -/

theorem mem_fields_of_field? (hf : l.field? i = some f) : f ∈ l.fields := by
  rw [field?, Option.join_eq_some_iff] at hf
  exact List.mem_filterMap.2 ⟨some f, List.mem_of_getElem? hf, rfl⟩

/-- Every field ends within the row. -/
theorem Tiled.stop_le (h : l.Tiled) (hf : f ∈ l.fields) :
    f.dimension.byteOffset + f.width ≤ l.size := by
  have hpos : 0 < f.width := by
    rw [h.width_eq f hf]
    exact f.dimension.type.size_pos
  -- the last place of the field is one of the row
  have hlast : f.dimension.byteOffset + f.width - 1 ∈ f.places := by
    rw [Field.places, List.mem_range'_1]
    omega
  have hrow : f.dimension.byteOffset + f.width - 1 ∈ List.range l.size := by
    rw [← h.places_eq]
    exact List.mem_flatMap.2 ⟨f, hf, hlast⟩
  rw [List.mem_range] at hrow
  omega

/-- The fields in two slots share no place. -/
theorem Tiled.disjoint (h : l.Tiled) (hij : i ≠ j) (hf : l.field? i = some f)
    (hg : l.field? j = some g) : f.places.Disjoint g.places := by
  have hnodup : (l.fields.flatMap Field.places).Nodup := by
    rw [h.places_eq]
    exact List.nodup_range
  have hpairs := (List.nodup_flatMap.1 hnodup).2
  rw [fields, List.pairwise_filterMap, List.pairwise_iff_getElem] at hpairs
  rw [field?, Option.join_eq_some_iff, List.getElem?_eq_some_iff] at hf hg
  obtain ⟨hi, hf⟩ := hf
  obtain ⟨hj, hg⟩ := hg
  rcases Nat.lt_or_gt_of_ne hij with hlt | hgt
  · exact hpairs i j hi hj hlt f hf g hg
  · exact fun k hk hk' => hpairs j i hj hi hgt g hg f hf hk' hk

/-- A value that is written to one field leaves the others alone. -/
theorem Tiled.leaves_write (h : l.Tiled) (hij : i ≠ j) (hf : l.field? i = some f)
    (hg : l.field? j = some g) (hrow : row.length = l.size) (v : Double) :
    g.Leaves row (f.dimension.write v row) := by
  have hmem := mem_fields_of_field? hf
  have hlength : (f.dimension.type.write ((v - f.dimension.offset) / f.dimension.scale)).length
      = f.width := by
    rw [Interpretation.length_write, h.width_eq f hmem]
  have hstop := h.stop_le hmem
  rw [← hlength, ← hrow] at hstop
  refine ⟨length_overwrite hstop, ?_⟩
  intro k hk
  apply getElem?_overwrite_of_not_mem hstop
  rw [hlength]
  exact fun hk' => h.disjoint hij hf hg hk' hk

/-! ### Every ledger -/

theorem setAt_eq_ok {p : Point} (hp : of p.schema = l) (hf : l.field? i = some f) (v : Double) :
    p.setAt i v = .ok (p.withValue f.dimension v) := by
  subst hp
  rw [field?_of] at hf
  obtain ⟨d, hd, rfl⟩ := Option.map_eq_some_iff.1 hf
  exact Point.setAt_eq_ok hd v

/-- Whatever has been set, replaced or picked: the fields of the filled slots take each place of a
row once, in slot order and as many as their types ask for. So a value written to one of them, in a
row or in a point, leaves all others and the length of the row alone, and turning a buffer of rows
around twice changes nothing. -/
theorem fields_isolated (h : l.Reached) :
    l.Tiled
      ∧ (∀ i j f g, i ≠ j → l.field? i = some f → l.field? j = some g →
          (∀ row : List UInt8, row.length = l.size → ∀ v, g.Leaves row (f.dimension.write v row))
            ∧ ∀ p : Point, of p.schema = l → p.data.length = l.size → ∀ v, ∃ p',
                p.setAt i v = .ok p' ∧ p'.schema = p.schema ∧ g.Leaves p.data p'.data)
      ∧ ∀ rows : List UInt8, l.flipRows (l.flipRows rows) = rows := by
  obtain ⟨s, hs, rfl⟩ := h.exists_built
  have htiled := tiled_of_built hs
  refine ⟨htiled, ?_, ?_⟩
  · intro i j f g hij hf hg
    refine ⟨fun row hrow v => htiled.leaves_write hij hf hg hrow v, ?_⟩
    intro p hp hdata v
    exact ⟨_, setAt_eq_ok hp hf v, rfl, htiled.leaves_write hij hf hg hdata v⟩
  · intro rows
    rw [flipRows_of, flipRows_of, Schema.flipRows_flipRows hs]

/-- Two fields that come with widths and places of their own, are set from the last slot to the
first with an empty slot between them, and are then picked in the other order. -/
theorem fields_isolated_specimen :
    ∃ l₁ l₂ l f g,
      (vacant 3).set ⟨{ name := "B", position := 2, type := .uint16, byteOffset := 77 }, 99⟩ = .ok l₁
        ∧ l₁.set ⟨{ name := "A", position := 0, type := .int32, byteOffset := 5 }, 1⟩ = .ok l₂
        ∧ l₂.subset [2, 1, 0] = .ok l ∧ l.field? 0 = some f ∧ l.field? 2 = some g
        ∧ f.places = [0, 1] ∧ g.places = [2, 3, 4, 5] ∧ l.Tiled
        ∧ ∀ v, g.Leaves (List.replicate 6 0) (f.dimension.write v (List.replicate 6 0)) := by
  have hledger : ∀ l₁ l₂ l,
      (vacant 3).set ⟨{ name := "B", position := 2, type := .uint16, byteOffset := 77 }, 99⟩ = .ok l₁ →
      l₁.set ⟨{ name := "A", position := 0, type := .int32, byteOffset := 5 }, 1⟩ = .ok l₂ →
      l₂.subset [2, 1, 0] = .ok l → l.Reached :=
    fun _ _ _ h₁ h₂ h => (((Reached.vacant 3).set h₁).set h₂).subset h
  obtain ⟨htiled, hleaves, -⟩ := fields_isolated (hledger _ _ _ rfl rfl rfl)
  refine ⟨_, _, _, _, _, rfl, rfl, rfl, rfl, rfl, by decide, by decide, htiled, ?_⟩
  exact (hleaves 0 2 _ _ (by decide) rfl rfl).1 _ rfl

end Ledger

end PointPatch
