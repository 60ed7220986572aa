/-
PointPatch/Representation.lean

The three forms that a patch can be held in, with the tag of each on the wire
and the words that a schema document uses to ask for one.
-/
import PointPatch.Text.Blank

namespace PointPatch

/-- The form that a patch is held in. -/
inductive Representation where
  /-- Rows back to back, as they are. -/
  | rows
  /-- The blob of an outside codec. -/
  | blob
  /-- One column for each dimension, each stored in a mode of its own. -/
  | columns
deriving DecidableEq, Repr

namespace Representation

/-- The tag on the wire. -/
def tag : Representation → Nat
  | rows => 0
  | blob => 1
  | columns => 2

/-- The form that a tag stands for. -/
def ofTag? : Nat → Option Representation
  | 0 => some rows
  | 1 => some blob
  | 2 => some columns
  | _ => none

/-- The name of the form in texts. -/
def name : Representation → String
  | rows => "none"
  | blob => "opaque"
  | columns => "dimensional"

/-- The form that the metadata of a schema document asks for; unknown words ask for rows. -/
def ofMetadata (value : String) : Representation :=
  let word := Text.trim value
  if Text.sameWord word "dimensional" then columns
  else if Text.sameWord word "ght" || Text.sameWord word "opaque" then blob
  else rows

@[simp] theorem ofTag?_tag (r : Representation) : ofTag? r.tag = some r := by
  cases r <;> rfl

theorem ofTag?_eq_some_iff {n : Nat} {r : Representation} : ofTag? n = some r ↔ n = r.tag := by
  constructor
  · intro h
    unfold ofTag? at h
    split at h <;> first | (cases h; rfl) | cases h
  · rintro rfl
    simp

theorem tag_lt (r : Representation) : r.tag < 3 := by
  cases r <;> decide

end Representation

end PointPatch
