/-
PointPatch/Markup/Name.lean

The characters of markup documents, and the names of elements and
attributes.

A name is a label, with a qualifier and a colon in front of it where it
belongs to a namespace.  Both parts begin with a letter, an underscore or one
of the characters that the standard counts with them; digits, points and
hyphens may follow.
-/

namespace PointPatch

namespace Markup

/-! ### Characters -/

/-- The blanks between the parts of a tag. -/
def isBlank (c : Char) : Bool := c == ' ' || c == '\t' || c == '\n' || c == '\r'

/-- The characters that a document may hold. -/
def isAllowed (c : Char) : Bool :=
  if c.toNat < 0x20 then isBlank c else c.toNat != 0xfffe && c.toNat != 0xffff

/-- Characters beyond ASCII that may begin a name, as ranges. -/
def nameStarts : List (Nat × Nat) :=
  [(0xc0, 0xd6), (0xd8, 0xf6), (0xf8, 0x2ff), (0x370, 0x37d), (0x37f, 0x1fff),
   (0x200c, 0x200d), (0x2070, 0x218f), (0x2c00, 0x2fef), (0x3001, 0xd7ff), (0xf900, 0xfdcf),
   (0xfdf0, 0xfffd), (0x10000, 0xeffff)]

/-- Characters beyond ASCII that may only follow in a name, as ranges. -/
def nameFollowers : List (Nat × Nat) :=
  [(0xb7, 0xb7), (0x300, 0x36f), (0x203f, 0x2040)]

/-- Whether a character may begin a name. -/
def isNameStart (c : Char) : Bool :=
  c.isAlpha || c == '_' || c == ':'
    || nameStarts.any fun r => r.1 ≤ c.toNat && c.toNat ≤ r.2

/-- Whether a character may stand in a name. -/
def isNamePart (c : Char) : Bool :=
  isNameStart c || c.isDigit || c == '-' || c == '.'
    || nameFollowers.any fun r => r.1 ≤ c.toNat && c.toNat ≤ r.2

/-! ### Names -/

/-- The name of an element or attribute as a tag has it. -/
structure TagName where
  /-- What stands before the colon; empty where there is none. -/
  qualifier : List Char
  /-- What stands after the colon. -/
  label : List Char
deriving DecidableEq, Repr

/-- Whether the first character may begin a name. -/
def startsWell : List Char → Bool
  | [] => false
  | c :: _ => isNameStart c

/-- The name that some characters write, at most one colon among them. -/
def TagName.ofChars? (cs : List Char) : Option TagName :=
  let first := cs.takeWhile (· != ':')
  match cs.dropWhile (· != ':') with
  | [] => if startsWell first then some ⟨[], first⟩ else none
  | _ :: label =>
    if label.contains ':' then none
    else if (first.isEmpty || startsWell first) && startsWell label then some ⟨first, label⟩
    else none

/-- The name at the front of some characters, and what follows it. -/
def TagName.read? (cs : List Char) : Option (TagName × List Char) := do
  let name ← ofChars? (cs.takeWhile isNamePart)
  return (name, cs.dropWhile isNamePart)

end Markup

end PointPatch
