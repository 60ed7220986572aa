/-
PointPatch/Config.lean

The settings of the engine, and their reading from a JSON text.

The text is an object with any of four members, or an array of up to four
values in the order of the fields; what is missing has its default.  Unknown
members are passed over, repeated known ones are refused.  Integers have to
be written as such and lie in the range of the field.
-/
import PointPatch.Fault
import PointPatch.Json.Reader

namespace PointPatch

/-- The settings of the engine. -/
structure Config where
  /-- Sampling ends once this many points have been seen. -/
  sampleThreshold : Nat := 10000
  /-- The level of compressed columns, from 0 to 9. -/
  deflateLevel : Nat := 6
  /-- The level of compressed blobs. -/
  zstdLevel : Int := 3
  /-- The byte order of messages for which none is asked. -/
  order : ByteOrder := .machine
deriving DecidableEq, Repr

namespace Config

/-- The names of the fields, in order. -/
def fieldNames : List String :=
  ["sample_threshold", "deflate_level", "opaque_zstd_level", "default_endian"]

/-- The integer of a value, if it lies in a range. -/
def inRange? (least greatest : Int) (j : Json) : Option Int := do
  let i ← j.toInt?
  if least ≤ i ∧ i ≤ greatest then return i else none

/-- The byte order of a value: its name, or an object with its name and nothing for a value. -/
def order? : Json → Option ByteOrder
  | .object [(name, .null)] =>
    (Json.unescape? name).bind fun s => ByteOrder.ofName? (String.ofList s)
  | j => j.toString?.bind ByteOrder.ofName?

/-- Takes a field over from a value. -/
def set? (c : Config) (name : String) (value : Json) : Option Config :=
  if name = "sample_threshold" then
    (inRange? 0 (Nat.pow 2 64 - 1) value).map fun i => { c with sampleThreshold := i.toNat }
  else if name = "deflate_level" then
    (inRange? 0 (Nat.pow 2 32 - 1) value).map fun i => { c with deflateLevel := i.toNat }
  else if name = "opaque_zstd_level" then
    (inRange? (-Nat.pow 2 31) (Nat.pow 2 31 - 1) value).map fun i => { c with zstdLevel := i }
  else if name = "default_endian" then
    (order? value).map fun o => { c with order := o }
  else some c

/-- The settings that a value describes. -/
def ofJson? : Json → Option Config
  | .object members => do
    let members ← members.mapM fun m => do
      let name ← Json.unescape? m.1
      return (String.ofList name, m.2)
    let known := (members.map Prod.fst).filter fieldNames.contains
    if known.eraseDups.length ≠ known.length then none
    else members.foldlM (fun c m => c.set? m.1 m.2) {}
  | .array items =>
    if fieldNames.length < items.length then none
    else (fieldNames.zip items).foldlM (fun c m => c.set? m.1 m.2) {}
  | _ => none

/-- The settings that a text describes. -/
def parse (text : String) : Except Fault Config :=
  match (Json.parse? text).bind ofJson? with
  | none => .error .configText
  | some c =>
    if 9 < c.deflateLevel then .error (.deflateLevelTooHigh c.deflateLevel) else .ok c

end Config

end PointPatch
