/-
PointPatch/Memory.lean

Memory, as far as the library sees it: for each number of bytes, whether a
buffer of as many is to be had.

What the answer is depends on the machine, and the library has no part in it.
Where it asks for a buffer and goes on only if there is one, the answers are a
parameter.  Of the answers no more is taken for granted than holds on every
machine: nothing is needed for a buffer without bytes, and none reaches over
more than half of the addresses that a word tells apart.
-/

namespace PointPatch

/-- Which buffers are to be had. -/
structure Memory where
  /-- Whether a buffer of so many bytes is set aside. -/
  grants : Nat → Bool
  grants_zero : grants 0 = true
  lt_of_grants {length : Nat} : grants length = true → length < Nat.pow 2 63

namespace Memory

/-- A machine with memory for every buffer below a tebibyte. -/
def tebibyte : Memory where
  grants length := length < Nat.pow 2 40
  grants_zero := rfl
  lt_of_grants h := Nat.lt_trans (of_decide_eq_true h) (by decide)

/-- A machine with memory for every buffer that can be addressed. -/
def addressable : Memory where
  grants length := length < Nat.pow 2 63
  grants_zero := rfl
  lt_of_grants h := of_decide_eq_true h

end Memory

end PointPatch
