/-
PointPatch/Text/Lowercase.lean

Small letters, by the rules of the Unicode standard that depend on no
language.  Two characters need more than the table: the capital I with a dot
becomes two characters, and a capital sigma becomes the final form at the end
of a word.  A sigma ends a word when the nearest character before it that is
not passed over has case, and the nearest one after it has none.
-/
import PointPatch.Text.CaseTable

namespace PointPatch

namespace Text

/-- Whether a code point lies in one of the ranges. -/
def isInRanges (ranges : List (Nat × Nat)) (n : Nat) : Bool :=
  ranges.any fun r => r.1 ≤ n && n ≤ r.2

/-- The small form of one character, taken out of context. -/
def smallForm (c : Char) : List Char :=
  let n := c.toNat
  if n < 0x80 then [c.toLower]
  else if n = 0x130 then ['i', Char.ofNat 0x307]
  else
    match CaseTable.small.find? fun r =>
        r.first ≤ n && n ≤ r.last && (n - r.first) % r.step == 0 with
    | some r => [Char.ofNat ((n : Int) + r.shift).toNat]
    | none => [c]

/-- Whether the nearest character that is not passed over has case. -/
def meetsCased (cs : List Char) : Bool :=
  match cs.dropWhile fun c => isInRanges CaseTable.ignorable c.toNat with
  | c :: _ => isInRanges CaseTable.cased c.toNat
  | [] => false

/-- The small form of a text, `before` being what precedes it, nearest character first. -/
def lowercaseAfter (before : List Char) : List Char → List Char
  | [] => []
  | c :: rest =>
    let small :=
      if c = 'Σ' then [if meetsCased before && !meetsCased rest then 'ς' else 'σ']
      else smallForm c
    small ++ lowercaseAfter (c :: before) rest

/-- The text in small letters. -/
def lowercase (s : String) : String :=
  String.ofList (lowercaseAfter [] s.toList)

end Text

end PointPatch
