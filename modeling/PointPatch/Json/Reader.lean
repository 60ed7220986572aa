/-
PointPatch/Json/Reader.lean

Reading of JSON texts.  The grammar is the strict one: no comments, no
trailing commas, no leading zeros, blanks are the space, the tab and the two
line ends, and nothing may follow the value.  Values may be nested as deep as
the text is long.
-/
import PointPatch.Json.Value

namespace PointPatch

namespace Json

/-- Whether a character may stand between the parts of a text. -/
def isSpace (c : Char) : Bool := c == ' ' || c == '\n' || c == '\t' || c == '\r'

/-- The text from its first part on. -/
def skipSpace (cs : List Char) : List Char := cs.dropWhile isSpace

/-- What follows a fixed word. -/
def afterWord? (word : List Char) (cs : List Char) : Option (List Char) :=
  if word.isPrefixOf cs then some (cs.drop word.length) else none

/-! ### Strings -/

/-- Reads a string up to its closing quote and leaves it as written. -/
def takeString? : List Char → Option (List Char × List Char)
  | [] => none
  | '"' :: rest => some ([], rest)
  | '\\' :: 'u' :: a :: b :: c :: d :: rest => do
    let _ ← hexQuad? a b c d
    let (s, rest) ← takeString? rest
    return ('\\' :: 'u' :: a :: b :: c :: d :: s, rest)
  | '\\' :: c :: rest => do
    let _ ← simpleEscape? c
    let (s, rest) ← takeString? rest
    return ('\\' :: c :: s, rest)
  | c :: rest => do
    if c.toNat < 32 ∨ c = '\\' then none
    else
      let (s, rest) ← takeString? rest
      return (c :: s, rest)

/-! ### Numbers -/

/-- Reads decimal digits, at least one. -/
def takeDigits? (cs : List Char) : Option (List Char × List Char) :=
  match cs.takeWhile Char.isDigit with
  | [] => none
  | ds => some (ds, cs.dropWhile Char.isDigit)

/-- Reads the digits before the point. -/
def takeWhole? : List Char → Option (List Char × List Char)
  | '0' :: rest => some (['0'], rest)
  | cs => takeDigits? cs

/-- Reads a point and the digits after it, if there is a point. -/
def takeFraction? : List Char → Option (List Char × List Char)
  | '.' :: rest => do
    let (ds, rest) ← takeDigits? rest
    return ('.' :: ds, rest)
  | cs => some ([], cs)

/-- Reads an exponent, if there is one. -/
def takeExponent? : List Char → Option (List Char × List Char)
  | c :: rest =>
    if c = 'e' ∨ c = 'E' then
      match rest with
      | '+' :: rest => (takeDigits? rest).map fun (ds, rest) => (c :: '+' :: ds, rest)
      | '-' :: rest => (takeDigits? rest).map fun (ds, rest) => (c :: '-' :: ds, rest)
      | rest => (takeDigits? rest).map fun (ds, rest) => (c :: ds, rest)
    else some ([], c :: rest)
  | [] => some ([], [])

/-- Reads a number and leaves it as written. -/
def takeNumber? (cs : List Char) : Option (List Char × List Char) := do
  let (sign, cs) := match cs with
    | '-' :: rest => (['-'], rest)
    | cs => ([], cs)
  let (whole, cs) ← takeWhole? cs
  let (fraction, cs) ← takeFraction? cs
  let (exponent, cs) ← takeExponent? cs
  return (sign ++ whole ++ fraction ++ exponent, cs)

/-! ### Values -/

mutual

/-- Reads a value. Every level of nesting takes a character, so the length of the text bounds
their number. -/
def takeValue? : Nat → List Char → Option (Json × List Char)
  | 0, _ => none
  | fuel + 1, cs =>
    match skipSpace cs with
    | 'n' :: rest => (afterWord? ['u', 'l', 'l'] rest).map fun rest => (.null, rest)
    | 't' :: rest => (afterWord? ['r', 'u', 'e'] rest).map fun rest => (.bool true, rest)
    | 'f' :: rest => (afterWord? ['a', 'l', 's', 'e'] rest).map fun rest => (.bool false, rest)
    | '"' :: rest => (takeString? rest).map fun (s, rest) => (.string s, rest)
    | '[' :: rest =>
      match skipSpace rest with
      | ']' :: rest => some (.array [], rest)
      | rest => (takeItems? fuel rest).map fun (items, rest) => (.array items, rest)
    | '\x7b' :: rest =>
      match skipSpace rest with
      | '\x7d' :: rest => some (.object [], rest)
      | rest => (takeMembers? fuel rest).map fun (members, rest) => (.object members, rest)
    | cs => (takeNumber? cs).map fun (n, rest) => (.number (String.ofList n), rest)

/-- Reads the items of an array, at least one. -/
def takeItems? : Nat → List Char → Option (List Json × List Char)
  | 0, _ => none
  | fuel + 1, cs => do
    let (item, cs) ← takeValue? fuel cs
    match skipSpace cs with
    | ',' :: rest =>
      let (items, rest) ← takeItems? fuel rest
      return (item :: items, rest)
    | ']' :: rest => return ([item], rest)
    | _ => none

/-- Reads the members of an object, at least one. -/
def takeMembers? : Nat → List Char → Option (List (List Char × Json) × List Char)
  | 0, _ => none
  | fuel + 1, cs =>
    match skipSpace cs with
    | '"' :: rest => do
      let (name, rest) ← takeString? rest
      match skipSpace rest with
      | ':' :: rest =>
        let (value, rest) ← takeValue? fuel rest
        match skipSpace rest with
        | ',' :: rest =>
          let (members, rest) ← takeMembers? fuel rest
          return ((name, value) :: members, rest)
        | '\x7d' :: rest => return ([(name, value)], rest)
        | _ => none
      | _ => none
    | _ => none

end

/-- The value that a text writes. -/
def parse? (text : String) : Option Json := do
  let cs := text.toList
  let (value, rest) ← takeValue? (2 * cs.length + 1) cs
  if skipSpace rest = [] then return value else none

end Json

end PointPatch
