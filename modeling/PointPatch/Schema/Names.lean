/-
PointPatch/Schema/Names.lean

The index from names to slots.  Names are kept in small letters; each stands
for one slot, the one it was given last.
-/
import PointPatch.Text.Lowercase

namespace PointPatch

/-- Slots by name in small letters. -/
abbrev NameIndex := List (String × Nat)

namespace NameIndex

/-- The slot that a name stands for, in any case. -/
def slot? (index : NameIndex) (name : String) : Option Nat :=
  List.lookup (Text.lowercase name) index

/-- The index without a name. -/
def forget (index : NameIndex) (name : String) : NameIndex :=
  index.filter fun entry => entry.1 != Text.lowercase name

/-- The index in which a name stands for the given slot. -/
def assign (index : NameIndex) (name : String) (slot : Nat) : NameIndex :=
  (Text.lowercase name, slot) :: index.forget name

end NameIndex

end PointPatch
