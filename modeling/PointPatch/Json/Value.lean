/-
PointPatch/Json/Value.lean

JSON values.  Numbers and strings are kept as they are written, so that a
value that nobody asks for need not be representable, and a number can be
read as whatever kind is asked for.  `ofString` and `toString?` move between
a text and its written form, `ofInt`, `ofDouble` and `toInt?` do so for
numbers.
-/
import PointPatch.Bytes.Hex
import PointPatch.Double.Decimal
import PointPatch.Double.Shortest

namespace PointPatch

/-- A JSON value. -/
inductive Json where
  | null
  | bool (value : Bool)
  /-- A number, as written. -/
  | number (written : String)
  /-- A string, as written between its quotes. -/
  | string (written : List Char)
  | array (items : List Json)
  /-- An object; the names are as written between their quotes. -/
  | object (members : List (List Char × Json))

namespace Json

/-! ### Texts -/

/-- How a character is written in a string. -/
def escapeChar (c : Char) : List Char :=
  if c = '"' then ['\\', '"']
  else if c = '\\' then ['\\', '\\']
  else if c = '\n' then ['\\', 'n']
  else if c = '\r' then ['\\', 'r']
  else if c = '\t' then ['\\', 't']
  else if c.toNat = 8 then ['\\', 'b']
  else if c.toNat = 12 then ['\\', 'f']
  else if c.toNat < 32 then
    ['\\', 'u', '0', '0'] ++ Hex.ofByte (UInt8.ofNat c.toNat)
  else [c]

/-- How a text is written between quotes. -/
def escape (s : String) : List Char := s.toList.flatMap escapeChar

/-- The number that four hexadecimal digits write. -/
def hexQuad? (a b c d : Char) : Option Nat := do
  let high := (← Hex.digit? a) * 16 + (← Hex.digit? b)
  let low := (← Hex.digit? c) * 16 + (← Hex.digit? d)
  return high * 256 + low

/-- The character that a simple escape stands for. -/
def simpleEscape? (c : Char) : Option Char :=
  if c = '"' ∨ c = '\\' ∨ c = '/' then some c
  else if c = 'b' then some (Char.ofNat 8)
  else if c = 'f' then some (Char.ofNat 12)
  else if c = 'n' then some '\n'
  else if c = 'r' then some '\r'
  else if c = 't' then some '\t'
  else none

/-- The text that a written string stands for; none when an escape is not one half of a pair
that needs two. -/
def unescape? : List Char → Option (List Char)
  | [] => some []
  | '\\' :: 'u' :: a :: b :: c :: d :: rest => do
    let unit ← hexQuad? a b c d
    if unit < 0xd800 ∨ 0xe000 ≤ unit then return Char.ofNat unit :: (← unescape? rest)
    else
      match rest with
      | '\\' :: 'u' :: e :: f :: g :: h :: rest =>
        let low ← hexQuad? e f g h
        if unit < 0xdc00 ∧ 0xdc00 ≤ low ∧ low < 0xe000 then
          return Char.ofNat (0x10000 + (unit - 0xd800) * 0x400 + (low - 0xdc00))
            :: (← unescape? rest)
        else none
      | _ => none
  | '\\' :: c :: rest => do return (← simpleEscape? c) :: (← unescape? rest)
  | c :: rest => do return c :: (← unescape? rest)

/-- The value of a text. -/
def ofString (s : String) : Json := .string (escape s)

/-- The text of a string value. -/
def toString? : Json → Option String
  | .string written => (unescape? written).map String.ofList
  | _ => none

/-- The object with the given names and values. -/
def ofMembers (members : List (String × Json)) : Json :=
  .object (members.map fun m => (escape m.1, m.2))

/-! ### Numbers -/

/-- The value of an integer. -/
def ofInt (i : Int) : Json := .number (toString i)

/-- The value of a natural number. -/
def ofNat (n : Nat) : Json := .number (toString n)

/-- The value of a number; infinities and NaNs have none. -/
def ofDouble (a : Double) : Json :=
  match a.text? with
  | some s => .number s
  | none => .null

/-- The value of something that may be missing. -/
def ofOption {α : Type} (f : α → Json) : Option α → Json
  | some a => f a
  | none => .null

/-- The number that decimal digits write; none when there is another character. -/
def digits? (cs : List Char) : Option Nat :=
  cs.foldlM (fun n c => if c.isDigit then some (10 * n + (c.toNat - 48)) else none) 0

/-- The integer of a number written without a fraction and an exponent. A negative zero is not
an integer. -/
def toInt? : Json → Option Int
  | .number written =>
    match written.toList with
    | '-' :: ds => (digits? ds).bind fun n => if n = 0 then none else some (-(n : Int))
    | ds => (digits? ds).map Int.ofNat
  | _ => none

/-- The number nearest to a value that writes one. -/
def toDouble? : Json → Option Double
  | .number written => Double.ofText? written.toList
  | _ => none

/-- The value of the first member of an object with the given name. -/
def member? (j : Json) (name : String) : Option Json :=
  match j with
  | .object members =>
    (members.find? fun m => unescape? m.1 == some name.toList).map Prod.snd
  | _ => none

end Json

end PointPatch
