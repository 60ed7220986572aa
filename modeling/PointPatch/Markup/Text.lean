/-
PointPatch/Markup/Text.lean

The characters of a document that make up texts and attribute values.

A character is written as it is or by a reference, either to its number or by
one of five names.  Written line ends become line feeds in a text and blanks
in an attribute value; what a reference stands for is never changed.
-/
import PointPatch.Bytes.Hex
import PointPatch.Markup.Name

namespace PointPatch

namespace Markup

/-- A character of a text, with the way in which it got there. -/
inductive Piece where
  /-- The character itself. -/
  | written (c : Char)
  /-- The character that a reference stands for. -/
  | referred (c : Char)
deriving DecidableEq, Repr

/-! ### References -/

/-- The number that digits of a base write; none for no digits or another character. -/
def number? (base : Nat) (ds : List Char) : Option Nat :=
  if ds.isEmpty then none
  else ds.foldlM (fun n c => (Hex.digit? c).bind fun d =>
    if d < base then some (base * n + d) else none) 0

/-- The character with a number, which has to fit into four bytes; the replacement character
where there is no such character. -/
def numbered? (n : Nat) : Option Char :=
  if Nat.pow 2 32 ≤ n then none
  else
    let c := if n.isValidChar then Char.ofNat n else Char.ofNat 0xfffd
    if isAllowed c then some c else none

/-- The character that is meant by what stands between the ampersand and the semicolon. -/
def referred? : List Char → Option Char
  | '#' :: 'x' :: ds => (number? 16 ds).bind numbered?
  | '#' :: ds => (number? 10 ds).bind numbered?
  | ['q', 'u', 'o', 't'] => some '"'
  | ['a', 'm', 'p'] => some '&'
  | ['a', 'p', 'o', 's'] => some '\''
  | ['l', 't'] => some '<'
  | ['g', 't'] => some '>'
  | _ => none

/-- The pieces of some characters; `open?` holds what has been read of a reference, latest
character first. -/
def pieces? : Option (List Char) → List Char → Option (List Piece)
  | none, [] => some []
  | some _, [] => none
  | none, c :: rest =>
    if c = '&' then pieces? (some []) rest else (pieces? none rest).map (.written c :: ·)
  | some body, c :: rest =>
    if c = ';' then do
      let c ← referred? body.reverse
      return .referred c :: (← pieces? none rest)
    else pieces? (some (c :: body)) rest

/-! ### Line ends -/

/-- The characters of a text. A written carriage return becomes a line feed, or goes away before
one; right before a reference, or as the last piece after one, it stays. -/
def textChars : List Piece → List Char
  | [] => []
  | .referred c :: [.written '\r'] => [c, '\r']
  | .written '\r' :: .written '\n' :: rest => '\n' :: textChars rest
  | .written '\r' :: .referred c :: rest => '\r' :: textChars (.referred c :: rest)
  | .written '\r' :: rest => '\n' :: textChars rest
  | .written c :: rest | .referred c :: rest => c :: textChars rest

/-- The characters of an attribute value. Each written line end or tab becomes a blank. -/
def valueChars : List Piece → List Char
  | [] => []
  | .written '\r' :: .written '\n' :: rest => ' ' :: valueChars rest
  | .written c :: rest => (if isBlank c then ' ' else c) :: valueChars rest
  | .referred c :: rest => c :: valueChars rest

/-- The text that some characters write. -/
def text? (cs : List Char) : Option (List Char) := (pieces? none cs).map textChars

/-- The attribute value that some characters write. -/
def value? (cs : List Char) : Option (List Char) := (pieces? none cs).map valueChars

/-- The text of characters that are not looked at for references. -/
def literalText (cs : List Char) : List Char := textChars (cs.map .written)

end Markup

end PointPatch
