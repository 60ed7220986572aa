/-
PointPatch/Text/Blank.lean

The white space of the Unicode standard, and texts with the white space at
both ends taken off.  Also equality of texts up to the case of ASCII letters,
which is how the fixed words of the formats are recognised.
-/

namespace PointPatch

namespace Text

/-- The characters that count as white space. -/
def isBlank (c : Char) : Bool :=
  let n := c.toNat
  (9 ≤ n && n ≤ 13) || n == 0x20 || n == 0x85 || n == 0xa0 || n == 0x1680
    || (0x2000 ≤ n && n ≤ 0x200a) || n == 0x2028 || n == 0x2029 || n == 0x202f
    || n == 0x205f || n == 0x3000

/-- A list of characters without the white space at both ends. -/
def trimBlank (cs : List Char) : List Char :=
  ((cs.dropWhile isBlank).reverse.dropWhile isBlank).reverse

/-- A text without the white space at both ends. -/
def trim (s : String) : String :=
  String.ofList (trimBlank s.toList)

/-- Whether two texts are the same but for the case of ASCII letters. -/
def sameWord (s t : String) : Bool :=
  s.toList.map Char.toLower == t.toList.map Char.toLower

end Text

end PointPatch
