/-
PointPatch/Interpretation.lean

The types that a stored value can have: integers of one, two, four and eight
bytes with or without a sign, and single and double precision numbers.

A value is stored in machine order.  Reading gives the number as a double;
writing rounds to the nearest integer, half away from zero, and stays within
the range of the type.
-/
import PointPatch.Bytes.Word
import PointPatch.Double.Rounding
import PointPatch.Text.Blank

namespace PointPatch

/-- How the bytes of a stored value are to be read. -/
inductive Interpretation where
  | int8
  | uint8
  | int16
  | uint16
  | int32
  | uint32
  | int64
  | uint64
  | float64
  | float32
deriving DecidableEq, Repr

namespace Interpretation

/-- How many bytes a value takes. -/
def size : Interpretation → Nat
  | int8 | uint8 => 1
  | int16 | uint16 => 2
  | int32 | uint32 | float32 => 4
  | int64 | uint64 | float64 => 8

/-- Whether values are integers with a sign. -/
def isSigned : Interpretation → Bool
  | int8 | int16 | int32 | int64 => true
  | _ => false

/-- Whether values are floating-point numbers. -/
def isFloat : Interpretation → Bool
  | float32 | float64 => true
  | _ => false

/-- The name of the type in texts. -/
def name : Interpretation → String
  | int8 => "int8_t"
  | uint8 => "uint8_t"
  | int16 => "int16_t"
  | uint16 => "uint16_t"
  | int32 => "int32_t"
  | uint32 => "uint32_t"
  | int64 => "int64_t"
  | uint64 => "uint64_t"
  | float64 => "double"
  | float32 => "float"

/-- The type that a token of a schema document names. The first letter, in either case, tells
the kind; for integers the first digit of the width is looked for right after `int` or `uint`. -/
def ofToken? (token : String) : Option Interpretation :=
  let bytes := (Text.trim token).toUTF8.data.toList
  let digit (place : Nat) (one two four eight : Interpretation) : Option Interpretation :=
    match bytes[place]? with
    | some 0x38 => some one
    | some 0x31 => some two
    | some 0x33 => some four
    | some 0x36 => some eight
    | _ => none
  match bytes.head? with
  | some 0x69 | some 0x49 => digit 3 int8 int16 int32 int64
  | some 0x75 | some 0x55 => digit 4 uint8 uint16 uint32 uint64
  | some 0x64 | some 0x44 => some float64
  | some 0x66 | some 0x46 => some float32
  | _ => none

/-- The least integer of the type. -/
def least (t : Interpretation) : Int :=
  if t.isSigned then -(Nat.pow 2 (8 * t.size - 1) : Nat) else 0

/-- The greatest integer of the type. -/
def greatest (t : Interpretation) : Int :=
  if t.isSigned then (Nat.pow 2 (8 * t.size - 1) : Nat) - 1 else (Nat.pow 2 (8 * t.size) : Nat) - 1

/-- The number that the bytes of one stored value stand for. -/
def read (t : Interpretation) (bytes : List UInt8) : Double :=
  let word := Word.ofLittle (bytes.take t.size)
  match t with
  | float64 => ⟨UInt64.ofNat word⟩
  | float32 => Double.ofSingle word
  | _ => if t.isSigned then Double.ofInt (Word.toSigned t.size word) else Double.ofNat word

/-- The bytes that store a number: for integers the nearest one that the type has, a NaN
counting as zero. -/
def write (t : Interpretation) (value : Double) : List UInt8 :=
  Word.toLittle t.size <|
    match t with
    | float64 => value.bits.toNat
    | float32 => value.toSingle
    | _ => Word.ofSigned t.size (value.roundWithin t.least t.greatest)

@[simp] theorem length_write (t : Interpretation) (value : Double) :
    (t.write value).length = t.size := by
  simp [write]

theorem size_pos (t : Interpretation) : 0 < t.size := by
  cases t <;> decide

theorem size_le (t : Interpretation) : t.size ≤ 8 := by
  cases t <;> decide

end Interpretation

end PointPatch
