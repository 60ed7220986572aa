/-
PointPatch/Double/Basic.lean

Double precision numbers as 64-bit patterns.  Records store such numbers bit
for bit, so the pattern itself is the value here: two different NaNs, or the
two zeros, are different values, and `lt`, `le` and `eq` are the comparisons
of IEEE 754 on top of that.

Comparison goes through `key`, an integer that grows with the number and is
the same for both zeros.  `min` and `max` ignore a NaN and keep their first
argument when the two compare equal.

Arithmetic is the correctly rounded one of `Float`.  A NaN operand goes
through with its payload, made quiet, the first operand first; an operation
without a value gives `invalid`.
-/

namespace PointPatch

/-- A double precision number, given by its bit pattern. -/
structure Double where
  /-- The sign bit, eleven exponent bits and 52 fraction bits. -/
  bits : UInt64
deriving DecidableEq, Repr

namespace Double

/-! ### Fields and classes -/

/-- The eleven bits of the biased exponent. -/
def exponentField (a : Double) : Nat := a.bits.toNat / Nat.pow 2 52 % Nat.pow 2 11

/-- The 52 bits below the exponent. -/
def fractionField (a : Double) : Nat := a.bits.toNat % Nat.pow 2 52

/-- Whether the sign bit is set. -/
def isNegative (a : Double) : Bool := Nat.pow 2 63 ≤ a.bits.toNat

/-- Whether the pattern stands for no number. -/
def isNaN (a : Double) : Bool := a.exponentField == 2047 && a.fractionField != 0

/-- Whether the pattern stands for a number other than the two infinities. -/
def isFinite (a : Double) : Bool := a.exponentField != 2047

/-- The integer significand `m` of a finite number `± m * 2 ^ q`. -/
def significand (a : Double) : Nat :=
  if a.exponentField = 0 then a.fractionField else Nat.pow 2 52 + a.fractionField

/-- The exponent `q` of a finite number `± m * 2 ^ q`. -/
def exponent (a : Double) : Int :=
  if a.exponentField = 0 then -1074 else (a.exponentField : Int) - 1075

/-! ### Constants -/

/-- Positive zero. -/
def zero : Double := ⟨0⟩

/-- The number one. -/
def one : Double := ⟨0x3ff0000000000000⟩

/-- The largest finite number. -/
def largest : Double := ⟨0x7fefffffffffffff⟩

/-- The smallest finite number. -/
def lowest : Double := ⟨0xffefffffffffffff⟩

/-- Positive infinity. -/
def infinity : Double := ⟨0x7ff0000000000000⟩

/-- The NaN that stands for a missing result read from a text. -/
def nan : Double := ⟨0x7ff8000000000000⟩

/-- The NaN of an operation that has no value, such as zero by zero. -/
def invalid : Double := ⟨0xfff8000000000000⟩

/-- The pattern with its sign bit turned over. -/
def neg (a : Double) : Double := ⟨a.bits ^^^ 0x8000000000000000⟩

instance : Neg Double := ⟨neg⟩

/-! ### Comparison -/

/-- An integer that orders the numbers: the magnitude bits, negated under a minus sign. -/
def key (a : Double) : Int :=
  if a.isNegative then -((a.bits.toNat - Nat.pow 2 63 : Nat) : Int) else a.bits.toNat

/-- Whether `a` is less than `b`; false when either is a NaN. -/
def lt (a b : Double) : Bool := !a.isNaN && !b.isNaN && a.key < b.key

/-- Whether `a` is at most `b`; false when either is a NaN. -/
def le (a b : Double) : Bool := !a.isNaN && !b.isNaN && a.key ≤ b.key

/-- Whether the two are the same number; false when either is a NaN. -/
def eq (a b : Double) : Bool := !a.isNaN && !b.isNaN && a.key == b.key

/-- The smaller of the two, a NaN ignored; `a` when they compare equal. -/
def min (a b : Double) : Double :=
  if a.isNaN then b else if b.lt a then b else a

/-- The larger of the two, a NaN ignored; `a` when they compare equal. -/
def max (a b : Double) : Double :=
  if a.isNaN then b else if a.lt b then b else a

/-! ### Arithmetic -/

/-- The NaN with the payload of `a` that an operation hands on. -/
def quiet (a : Double) : Double := ⟨a.bits ||| 0x0008000000000000⟩

/-- Applies an operation to two numbers, handing on the first NaN among them. -/
def lift (op : Float → Float → Float) (a b : Double) : Double :=
  if a.isNaN then a.quiet
  else if b.isNaN then b.quiet
  else
    let r : Double := ⟨(op (Float.ofBits a.bits) (Float.ofBits b.bits)).toBits⟩
    if r.isNaN then invalid else r

instance : Add Double := ⟨lift (· + ·)⟩
instance : Sub Double := ⟨lift (· - ·)⟩
instance : Mul Double := ⟨lift (· * ·)⟩
instance : Div Double := ⟨lift (· / ·)⟩

end Double

end PointPatch
