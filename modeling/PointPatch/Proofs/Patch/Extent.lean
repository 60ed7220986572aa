/-
PointPatch/Proofs/Patch/Extent.lean

What a rectangle is after it has been widened and merged.

Rectangles come about from the empty one, by points that they are widened by
and by rectangles of the same kind that they are merged with (`Growth`).  Each
of their four sides is the foremost coordinate of these points, or where the
empty rectangle has it if no point goes beyond (`Growth.isExtent_bounds`); a
coordinate that is no number has no part in it.  Least and greatest are the
same thing here, with the order of numbers turned around.

So the points alone decide, up to the two zeros, and it is of no account in
which order they came or how they were grouped (`IsExtent.eq_of_mem_iff`).  As
no side can be in front of where the empty rectangle has it, merging with that
changes nothing.

The empty rectangle is an ordinary one with its corners swapped, and therefore
is met by a rectangle whose points reach the ends of the finite numbers on all
four sides, and by no other (`IsExtent.intersects_empty_iff`).
-/
import PointPatch.Patch.Bounds
import Mathlib.Data.List.Perm.Basic

namespace PointPatch

/-! ### The foremost of some numbers -/

namespace Double

variable {rank : Double → Int} {start a b : Double} {xs ys : List Double} {k : Int}

/-- The one of two numbers that has the lesser rank, a NaN ignored; `a` when their ranks are the
same. -/
def foremost (rank : Double → Int) (a b : Double) : Double :=
  if a.isNaN then b else if !b.isNaN && rank b < rank a then b else a

theorem min_eq_foremost (a b : Double) : a.min b = foremost key a b := by
  rw [min, foremost, lt]
  cases a.isNaN <;> simp

theorem max_eq_foremost (a b : Double) : a.max b = foremost (fun x => -x.key) a b := by
  rw [max, foremost, lt]
  cases a.isNaN <;> simp

theorem isNaN_foremost (ha : a.isNaN = false) : (foremost rank a b).isNaN = false := by
  rw [foremost, if_neg (Bool.eq_false_iff.1 ha)]
  split
  · rename_i h
    rw [Bool.and_eq_true, Bool.not_eq_true'] at h
    exact h.1
  · exact ha

/-- What is not behind the foremost of two numbers is behind neither of them. -/
theorem le_rank_foremost_iff (ha : a.isNaN = false) :
    k ≤ rank (foremost rank a b) ↔ k ≤ rank a ∧ (b.isNaN = false → k ≤ rank b) := by
  rw [foremost, if_neg (Bool.eq_false_iff.1 ha)]
  cases hb : b.isNaN
  · by_cases hlt : rank b < rank a
    · rw [if_pos (by simpa using hlt)]
      exact ⟨fun h => ⟨by omega, fun _ => h⟩, fun h => h.2 rfl⟩
    · rw [if_neg (by simpa using hlt)]
      exact ⟨fun h => ⟨h, fun _ => by omega⟩, fun h => h.1⟩
  · simp

/-- `a` has the least rank among `start` and those of some numbers that are no NaN. -/
structure IsForemost (rank : Double → Int) (start : Double) (xs : List Double) (a : Double) :
    Prop where
  isNaN_eq : a.isNaN = false
  le_rank_iff : ∀ k, k ≤ rank a ↔ k ≤ rank start ∧ ∀ x ∈ xs, x.isNaN = false → k ≤ rank x

theorem isForemost_nil (hstart : start.isNaN = false) : IsForemost rank start [] start :=
  ⟨hstart, fun k => by simp⟩

theorem IsForemost.cons (h : IsForemost rank start xs a) (x : Double) :
    IsForemost rank start (x :: xs) (foremost rank a x) where
  isNaN_eq := isNaN_foremost h.isNaN_eq
  le_rank_iff k := by
    rw [le_rank_foremost_iff h.isNaN_eq, h.le_rank_iff, List.forall_mem_cons, and_assoc,
      and_comm (a := ∀ y ∈ xs, _)]

theorem IsForemost.append (ha : IsForemost rank start xs a) (hb : IsForemost rank start ys b) :
    IsForemost rank start (xs ++ ys) (foremost rank a b) where
  isNaN_eq := isNaN_foremost ha.isNaN_eq
  le_rank_iff k := by
    rw [le_rank_foremost_iff ha.isNaN_eq, ha.le_rank_iff, hb.le_rank_iff, List.forall_mem_append]
    constructor
    · rintro ⟨⟨hstart, hxs⟩, hys⟩
      exact ⟨hstart, hxs, (hys hb.isNaN_eq).2⟩
    · rintro ⟨hstart, hxs, hys⟩
      exact ⟨⟨hstart, hxs⟩, fun _ => ⟨hstart, hys⟩⟩

theorem IsForemost.rank_le_start (h : IsForemost rank start xs a) : rank a ≤ rank start :=
  ((h.le_rank_iff _).1 (Int.le_refl _)).1

/-- Which numbers there are decides on the rank, not their order or how often they occur. -/
theorem IsForemost.rank_eq (ha : IsForemost rank start xs a) (hb : IsForemost rank start ys b)
    (hmem : ∀ x, x ∈ xs ↔ x ∈ ys) : rank a = rank b := by
  have hsame : ∀ k, k ≤ rank a ↔ k ≤ rank b := by
    intro k
    rw [ha.le_rank_iff, hb.le_rank_iff]
    simp only [hmem]
  exact Int.le_antisymm ((hsame _).1 (Int.le_refl _)) ((hsame _).2 (Int.le_refl _))

/-- What is in front of where all start is one of the numbers. -/
theorem IsForemost.rank_le_iff (h : IsForemost rank start xs a) (hk : k < rank start) :
    rank a ≤ k ↔ ∃ x ∈ xs, x.isNaN = false ∧ rank x ≤ k := by
  have hbehind := h.le_rank_iff (k + 1)
  rw [and_iff_right (show k + 1 ≤ rank start from hk)] at hbehind
  constructor
  · intro hle
    by_contra hnone
    have hall : ∀ x ∈ xs, x.isNaN = false → k + 1 ≤ rank x := fun x hx hnumber =>
      Int.not_le.1 fun hxk => hnone ⟨x, hx, hnumber, hxk⟩
    exact absurd (hbehind.2 hall) (Int.not_le.2 (Int.lt_add_one_of_le hle))
  · rintro ⟨x, hx, hnumber, hxk⟩
    by_contra hlt
    have hxk' := hbehind.1 (Int.not_le.1 hlt) x hx hnumber
    omega

/-- Where all start has no part in what is foremost. -/
theorem IsForemost.foremost_start (h : IsForemost rank start xs a) :
    foremost rank a start = a := by
  have hle := h.rank_le_start
  rw [foremost, if_neg (Bool.eq_false_iff.1 h.isNaN_eq), if_neg]
  simp [hle]

/-- The same the other way round, where no other number has the rank of `start`. -/
theorem IsForemost.start_foremost (h : IsForemost rank start xs a)
    (hstart : start.isNaN = false) (halone : rank a = rank start → a = start) :
    foremost rank start a = a := by
  have hle := h.rank_le_start
  rw [foremost, if_neg (Bool.eq_false_iff.1 hstart), h.isNaN_eq]
  by_cases hlt : rank a < rank start
  · rw [if_pos (by simpa using hlt)]
  · rw [if_neg (by simpa using hlt)]
    exact (halone (by omega)).symm

/-! ### Comparison -/

/-- Numbers that compare equal are the same, unless they are zeros. -/
theorem eq_of_key_eq (h : a.key = b.key) (hb : b.key ≠ 0) : a = b := by
  have hbits : a.bits.toNat = b.bits.toNat := by
    simp only [key, isNegative, Nat.pow_eq, decide_eq_true_eq] at h hb
    split at h <;> split at h <;> omega
  obtain ⟨bits⟩ := a
  exact congrArg Double.mk (UInt64.toNat_inj.1 hbits)

theorem eq_eq_true_iff (ha : a.isNaN = false) (hb : b.isNaN = false) :
    a.eq b = true ↔ a.key = b.key := by
  rw [eq, ha, hb]
  simp

theorem lt_eq_false_iff (ha : a.isNaN = false) (hb : b.isNaN = false) :
    a.lt b = false ↔ b.key ≤ a.key := by
  rw [lt, ha, hb]
  simp

theorem le_eq_true_iff : a.le b = true ↔ a.isNaN = false ∧ b.isNaN = false ∧ a.key ≤ b.key := by
  rw [le, Bool.and_eq_true, Bool.and_eq_true, Bool.not_eq_true', Bool.not_eq_true',
    decide_eq_true_eq, and_assoc]

end Double

/-! ### Sides -/

/-- A side of a rectangle. -/
inductive Side where
  | left
  | right
  | bottom
  | top

namespace Side

/-- The order in which numbers come for a side, the foremost first. -/
def rank : Side → Double → Int
  | left, a => a.key
  | right, a => -a.key
  | bottom, a => a.key
  | top, a => -a.key

/-- Where the empty rectangle has the side. -/
def start : Side → Double
  | left => .largest
  | right => .lowest
  | bottom => .largest
  | top => .lowest

/-- The coordinate of a point that counts for the side. -/
def coordinate : Side → Double × Double → Double
  | left, p => p.1
  | right, p => p.1
  | bottom, p => p.2
  | top, p => p.2

/-- The side across the rectangle. -/
def opposite : Side → Side
  | left => right
  | right => left
  | bottom => top
  | top => bottom

variable {a b : Double}

theorem forall_iff {P : Side → Prop} :
    (∀ s, P s) ↔ P left ∧ P right ∧ P bottom ∧ P top := by
  constructor
  · intro h
    exact ⟨h left, h right, h bottom, h top⟩
  · rintro ⟨hleft, hright, hbottom, htop⟩ s
    cases s with
    | left => exact hleft
    | right => exact hright
    | bottom => exact hbottom
    | top => exact htop

theorem isNaN_start (s : Side) : s.start.isNaN = false := by
  cases s <;> decide

/-- No other number has the place of an empty side. -/
theorem eq_start_of_rank_eq {s : Side} (h : s.rank a = s.rank s.start) : a = s.start := by
  cases s with
  | left => exact Double.eq_of_key_eq h (by decide)
  | right => exact Double.eq_of_key_eq (Int.neg_inj.1 h) (by decide)
  | bottom => exact Double.eq_of_key_eq h (by decide)
  | top => exact Double.eq_of_key_eq (Int.neg_inj.1 h) (by decide)

/-- Whether a coordinate lies where the empty rectangle has the opposite side, or in front of it. -/
def isReached : Side → Double → Bool
  | left, a => a.le .lowest
  | right, a => Double.largest.le a
  | bottom, a => a.le .lowest
  | top, a => Double.largest.le a

theorem isReached_iff {s : Side} :
    s.isReached a = true ↔ a.isNaN = false ∧ s.rank a ≤ s.rank s.opposite.start := by
  have hlowest : a.le .lowest = true ↔ a.isNaN = false ∧ a.key ≤ Double.lowest.key := by
    rw [Double.le_eq_true_iff, and_iff_right (a := Double.lowest.isNaN = false) (by decide)]
  have hlargest : Double.largest.le a = true ↔
      a.isNaN = false ∧ -a.key ≤ -Double.largest.key := by
    rw [Double.le_eq_true_iff, and_iff_right (a := Double.largest.isNaN = false) (by decide),
      Int.neg_le_neg_iff]
  cases s with
  | left => exact hlowest
  | right => exact hlargest
  | bottom => exact hlowest
  | top => exact hlargest

/-- Whether the first of two numbers lies behind the other one, as seen from the side. -/
def isBehind : Side → Double → Double → Bool
  | left, a, b => b.lt a
  | right, a, b => a.lt b
  | bottom, a, b => b.lt a
  | top, a, b => a.lt b

theorem isBehind_eq_false_iff {s : Side} (ha : a.isNaN = false) (hb : b.isNaN = false) :
    s.isBehind a b = false ↔ s.rank a ≤ s.rank b := by
  have hbehind := Double.lt_eq_false_iff hb ha
  have hinFront : a.lt b = false ↔ -a.key ≤ -b.key := by
    rw [Double.lt_eq_false_iff ha hb, Int.neg_le_neg_iff]
  cases s with
  | left => exact hbehind
  | right => exact hinFront
  | bottom => exact hbehind
  | top => exact hinFront

theorem eq_eq_true_iff {s : Side} (ha : a.isNaN = false) (hb : b.isNaN = false) :
    a.eq b = true ↔ s.rank a = s.rank b := by
  have hkey := Double.eq_eq_true_iff ha hb
  cases s with
  | left => exact hkey
  | right => exact hkey.trans Int.neg_inj.symm
  | bottom => exact hkey
  | top => exact hkey.trans Int.neg_inj.symm

theorem rank_start_opposite_lt (s : Side) : s.rank s.opposite.start < s.rank s.start := by
  cases s <;> decide

end Side

/-! ### Rectangles by their sides -/

namespace Bounds

variable {points points' : List (Double × Double)} {b c : Bounds}

/-- Where a rectangle has a side. -/
def side (b : Bounds) : Side → Double
  | .left => b.xmin
  | .right => b.xmax
  | .bottom => b.ymin
  | .top => b.ymax

/-- Whether two rectangles have the same corners, as numbers. -/
def eq (b c : Bounds) : Bool :=
  b.xmin.eq c.xmin && b.xmax.eq c.xmax && b.ymin.eq c.ymin && b.ymax.eq c.ymax

theorem side_empty (s : Side) : empty.side s = s.start := by
  cases s <;> rfl

theorem side_merge (b c : Bounds) (s : Side) :
    (b.merge c).side s = Double.foremost s.rank (b.side s) (c.side s) := by
  cases s with
  | left => exact Double.min_eq_foremost _ _
  | right => exact Double.max_eq_foremost _ _
  | bottom => exact Double.min_eq_foremost _ _
  | top => exact Double.max_eq_foremost _ _

theorem side_expand (b : Bounds) (x y : Double) (s : Side) :
    (b.expand x y).side s = Double.foremost s.rank (b.side s) (s.coordinate (x, y)) := by
  rw [show b.expand x y = b.merge ⟨x, x, y, y⟩ from rfl, side_merge]
  cases s <;> rfl

theorem ext_side (h : ∀ s, b.side s = c.side s) : b = c := by
  obtain ⟨xmin, xmax, ymin, ymax⟩ := b
  obtain rfl : xmin = c.xmin := h .left
  obtain rfl : xmax = c.xmax := h .right
  obtain rfl : ymin = c.ymin := h .bottom
  obtain rfl : ymax = c.ymax := h .top
  rfl

theorem eq_eq_true_iff_forall :
    b.eq c = true ↔ ∀ s, (b.side s).eq (c.side s) = true := by
  rw [eq, Bool.and_eq_true, Bool.and_eq_true, Bool.and_eq_true, and_assoc, and_assoc,
    Side.forall_iff]
  rfl

/-- Rectangles meet if no side of the one is behind the opposite side of the other. -/
theorem intersects_eq_true_iff_forall :
    b.intersects c = true ↔ ∀ s : Side, s.isBehind (b.side s) (c.side s.opposite) = false := by
  rw [intersects, Bool.not_eq_true', Bool.or_eq_false_iff, Bool.or_eq_false_iff,
    Bool.or_eq_false_iff, and_assoc, and_assoc, Side.forall_iff]
  rfl

theorem intersects_comm (b c : Bounds) : b.intersects c = c.intersects b := by
  rw [intersects, intersects, Bool.or_comm (c.xmax.lt b.xmin), Bool.or_assoc, Bool.or_assoc,
    Bool.or_comm (c.ymax.lt b.ymin), ← Bool.or_assoc, ← Bool.or_assoc]

/-! ### The rectangle of some points -/

/-- Each side of the rectangle is the foremost coordinate of the points, or where the empty
rectangle has it. -/
def IsExtent (points : List (Double × Double)) (b : Bounds) : Prop :=
  ∀ s : Side, Double.IsForemost s.rank s.start (points.map s.coordinate) (b.side s)

theorem isExtent_empty : IsExtent [] empty := fun s =>
  side_empty s ▸ Double.isForemost_nil s.isNaN_start

theorem IsExtent.expand (h : IsExtent points b) (x y : Double) :
    IsExtent ((x, y) :: points) (b.expand x y) := fun s =>
  side_expand b x y s ▸ (h s).cons (s.coordinate (x, y))

theorem IsExtent.merge (hb : IsExtent points b) (hc : IsExtent points' c) :
    IsExtent (points ++ points') (b.merge c) := by
  intro s
  rw [side_merge, List.map_append]
  exact (hb s).append (hc s)

/-- Which points there are decides on the rectangle, up to the two zeros. -/
theorem IsExtent.eq_of_mem_iff (hb : IsExtent points b) (hc : IsExtent points' c)
    (hmem : ∀ p, p ∈ points ↔ p ∈ points') : b.eq c = true := by
  refine eq_eq_true_iff_forall.2 fun s => ?_
  refine (Side.eq_eq_true_iff (hb s).isNaN_eq (hc s).isNaN_eq).2 ((hb s).rank_eq (hc s) fun x => ?_)
  simp only [List.mem_map, hmem]

/-! ### The empty rectangle -/

theorem IsExtent.merge_empty (h : IsExtent points b) : b.merge empty = b := by
  refine ext_side fun s => ?_
  rw [side_merge, side_empty]
  exact (h s).foremost_start

theorem IsExtent.empty_merge (h : IsExtent points b) : empty.merge b = b := by
  refine ext_side fun s => ?_
  rw [side_merge, side_empty]
  exact (h s).start_foremost s.isNaN_start Side.eq_start_of_rank_eq

/-- Whether the points reach both ends of the finite numbers with both coordinates. -/
def Spans (points : List (Double × Double)) : Prop :=
  (∃ p ∈ points, p.1.le .lowest = true) ∧ (∃ p ∈ points, Double.largest.le p.1 = true)
    ∧ (∃ p ∈ points, p.2.le .lowest = true) ∧ ∃ p ∈ points, Double.largest.le p.2 = true

instance (points : List (Double × Double)) : Decidable (Spans points) :=
  inferInstanceAs (Decidable (_ ∧ _ ∧ _ ∧ _))

theorem spans_iff :
    Spans points ↔ ∀ s : Side, ∃ p ∈ points, s.isReached (s.coordinate p) = true := by
  rw [Side.forall_iff]
  rfl

/-- The rectangles that meet the empty one. -/
theorem IsExtent.intersects_empty_iff (h : IsExtent points b) :
    b.intersects empty = true ↔ Spans points := by
  rw [intersects_eq_true_iff_forall, spans_iff]
  refine forall_congr' fun s => ?_
  rw [side_empty, Side.isBehind_eq_false_iff (h s).isNaN_eq s.opposite.isNaN_start,
    (h s).rank_le_iff s.rank_start_opposite_lt]
  simp only [List.mem_map, exists_exists_and_eq_and, Side.isReached_iff]

end Bounds

/-! ### Growth -/

/-- How a rectangle has come about. -/
inductive Growth where
  /-- The empty rectangle. -/
  | nothing
  /-- A rectangle widened by a point. -/
  | expand (g : Growth) (x y : Double)
  /-- A rectangle merged with another one. -/
  | merge (g h : Growth)

namespace Growth

/-- What has come about. -/
def bounds : Growth → Bounds
  | nothing => .empty
  | expand g x y => g.bounds.expand x y
  | merge g h => g.bounds.merge h.bounds

/-- The points that have been taken in, as often as they have. -/
def points : Growth → List (Double × Double)
  | nothing => []
  | expand g x y => (x, y) :: g.points
  | merge g h => g.points ++ h.points

/-- At any time a rectangle is that of the points that have been taken in. -/
theorem isExtent_bounds (g : Growth) : Bounds.IsExtent g.points g.bounds := by
  induction g with
  | nothing => exact Bounds.isExtent_empty
  | expand g x y ih => exact ih.expand x y
  | merge g h ihg ihh => exact ihg.merge ihh

/-- What widening and merging come to.  Merging with the empty rectangle changes nothing.  It is met
by those rectangles whose points reach both ends of the finite numbers with both coordinates, and by
no others; which of two rectangles is asked whether they meet is of no account.  The points alone
decide on a rectangle, as numbers, whatever their order and grouping. -/
theorem bounds_of_points (g : Growth) :
    g.bounds.merge .empty = g.bounds ∧ Bounds.empty.merge g.bounds = g.bounds
    ∧ (g.bounds.intersects .empty = true ↔ Bounds.Spans g.points)
    ∧ (Bounds.empty.intersects g.bounds = true ↔ Bounds.Spans g.points)
    ∧ ∀ h : Growth, g.bounds.intersects h.bounds = h.bounds.intersects g.bounds
        ∧ (g.points.Perm h.points → g.bounds.eq h.bounds = true) := by
  have hg := g.isExtent_bounds
  refine ⟨hg.merge_empty, hg.empty_merge, hg.intersects_empty_iff, ?_,
    fun h => ⟨?_, fun hperm => ?_⟩⟩
  · rw [Bounds.intersects_comm]
    exact hg.intersects_empty_iff
  · exact Bounds.intersects_comm _ _
  · exact hg.eq_of_mem_iff h.isExtent_bounds fun _ => hperm.mem_iff

/-- Two points with zeros of either sign and a coordinate that is no number, one after the other and
as rectangles of their own: other bits, the same rectangle. -/
theorem bounds_of_points_zeros :
    let g := (nothing.expand .zero .one).expand (-.zero) .nan
    let h := (nothing.expand (-.zero) .nan).merge (nothing.expand .zero .one)
    g.points.Perm h.points ∧ g.bounds ≠ h.bounds ∧ g.bounds.eq h.bounds = true
      ∧ g.bounds.merge .empty = g.bounds ∧ g.bounds.intersects .empty = false := by
  intro g h
  obtain ⟨hmerge, -, hempty, -, hsame⟩ := bounds_of_points g
  have hperm : g.points.Perm h.points := by decide
  refine ⟨hperm, by decide, (hsame h).2 hperm, hmerge, ?_⟩
  rw [← Bool.not_eq_true, hempty]
  decide

/-- A rectangle from the smallest finite number to the largest meets the empty one. -/
theorem spanning_meets_empty :
    let g := (nothing.expand .lowest .lowest).expand .largest .largest
    g.bounds.intersects .empty = true ∧ Bounds.empty.intersects g.bounds = true := by
  decide

end Growth

end PointPatch
