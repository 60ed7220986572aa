/-
PointPatch/Markup/Token.lean

The parts that a document is cut into: tags, stretches of text, and asides,
which are comments and processing instructions.  A declaration may open the
document; a document type is not accepted.

The characters of a stretch of text are kept as they stand in the document,
because blanks are all that may stand outside the outermost element.
-/
import PointPatch.Markup.Text

namespace PointPatch

namespace Markup

/-- A part of a document. -/
inductive Token where
  /-- The tag that opens an element; an empty element is closed by the same tag. -/
  | opening (name : TagName) (attributes : List (TagName × List Char)) (isEmpty : Bool)
  /-- The tag that closes an element. -/
  | closing (name : TagName)
  /-- Characters between tags. -/
  | text (written : List Char)
  /-- Characters in which markup is not looked for. -/
  | literal (written : List Char)
  /-- A comment or a processing instruction. -/
  | aside
deriving Repr

/-! ### Pieces of syntax -/

/-- What follows a word at the front of some characters. -/
def after? (word : String) (cs : List Char) : Option (List Char) :=
  if word.toList.isPrefixOf cs then some (cs.drop word.length) else none

/-- What comes before the first occurrence of a word, and what follows it. -/
def breakAt? (word : String) : List Char → Option (List Char × List Char)
  | [] => none
  | c :: rest =>
    match after? word (c :: rest) with
    | some rest => some ([], rest)
    | none => (breakAt? word rest).map fun (before, rest) => (c :: before, rest)

/-- Some characters without the blanks at their front. -/
def skipBlanks (cs : List Char) : List Char := cs.dropWhile isBlank

/-- Whether the first character is a blank. -/
def startsBlank : List Char → Bool
  | [] => false
  | c :: _ => isBlank c

/-- An attribute as written: its name, and what stands between the quotes. -/
def attribute? (cs : List Char) : Option (TagName × List Char × List Char) := do
  let (name, cs) ← TagName.read? cs
  match skipBlanks (← after? "=" (skipBlanks cs)) with
  | quote :: cs =>
    if quote = '"' ∨ quote = '\'' then
      let (value, cs) := cs.span fun c => c != quote && c != '<'
      let cs ← after? (String.singleton quote) cs
      return (name, value, cs)
    else none
  | [] => none

/-- The attributes of a tag up to its end, and whether the tag closes its element. Each attribute
is separated by blanks from what comes before; `fuel` bounds their number. -/
def attributes? (fuel : Nat) (cs : List Char) :
    Option (List (TagName × List Char) × Bool × List Char) :=
  match fuel with
  | 0 => none
  | fuel + 1 =>
    match skipBlanks cs with
    | '>' :: rest => some ([], false, rest)
    | '/' :: rest => (after? ">" rest).map fun rest => ([], true, rest)
    | rest =>
      if startsBlank cs then do
        let (name, written, rest) ← attribute? rest
        let value ← value? written
        let (others, isEmpty, rest) ← attributes? fuel rest
        return ((name, value) :: others, isEmpty, rest)
      else none

/-- Whether the characters are a comment: no two hyphens in a row, none at the end. -/
def isComment (cs : List Char) : Bool :=
  (breakAt? "--" cs).isNone && cs.getLast? != some '-'

/-! ### Tokens -/

/-- The first part of a document that is not at its end, and what follows it. -/
def Token.next? (cs : List Char) : Option (Token × List Char) :=
  match cs with
  | '<' :: '!' :: rest =>
    match after? "--" rest with
    | some rest => do
      let (content, rest) ← breakAt? "-->" rest
      if isComment content then return (.aside, rest) else none
    | none => do
      let rest ← after? "[CDATA[" rest
      let (content, rest) ← breakAt? "]]>" rest
      return (.literal content, rest)
  | '<' :: '?' :: rest =>
    if (after? "xml " rest).isSome then none
    else do
      if startsWell rest then
        let (_, rest) ← breakAt? "?>" (rest.dropWhile isNamePart)
        return (.aside, rest)
      else none
  | '<' :: '/' :: rest => do
    let (name, rest) ← TagName.read? rest
    let rest ← after? ">" (skipBlanks rest)
    return (.closing name, rest)
  | '<' :: rest => do
    let (name, rest) ← TagName.read? rest
    let (attributes, isEmpty, rest) ← attributes? (rest.length + 1) rest
    return (.opening name attributes isEmpty, rest)
  | _ =>
    let (content, rest) := cs.span (· != '<')
    if (breakAt? "]]>" content).isSome then none else some (.text content, rest)

/-- The parts of a document; `fuel` bounds their number. -/
def Token.all? (fuel : Nat) (cs : List Char) : Option (List Token) :=
  match fuel, cs with
  | _, [] => some []
  | 0, _ => none
  | fuel + 1, cs => do
    let (token, rest) ← next? cs
    return token :: (← all? fuel rest)

/-! ### The declaration -/

/-- Blanks, unless the end of the declaration comes next. -/
def separated? (cs : List Char) : Option (List Char) :=
  if startsBlank cs then some (skipBlanks cs)
  else if cs.isEmpty || (after? "?>" cs).isSome then some cs
  else none

/-- What follows an attribute that begins with a word, and the blanks behind it, if it is
there. -/
def optional? (word : String) (cs : List Char) : Option (List Char) :=
  if (after? word cs).isSome then (attribute? cs).bind fun a => separated? a.2.2 else some cs

/-- What follows the declaration, if the document begins with one: a version, perhaps an
encoding, perhaps a word on whether the document stands alone. -/
def afterDeclaration? (cs : List Char) : Option (List Char) :=
  match after? "<?xml " cs with
  | none => some cs
  | some rest => do
    let rest := skipBlanks rest
    if (after? "version" rest).isNone then none
    else
      let rest ← optional? "version" rest
      let rest ← optional? "encoding" rest
      let rest ← optional? "standalone" rest
      after? "?>" rest

end Markup

end PointPatch
