/-
PointPatch/Json/Printer.lean

The two layouts of rendered documents: everything on one line without
blanks, and one value a line, indented by two blanks a level.  An empty array
or object has nothing between its brackets in either.
-/
import PointPatch.Json.Value

namespace PointPatch

namespace Json

/-- A string as written, between quotes. -/
def quoted (written : List Char) : List Char := '"' :: written ++ ['"']

/-- Items separated by commas. -/
def separated (comma : List Char) : List (List Char) → List Char
  | [] => []
  | [item] => item
  | item :: rest => item ++ comma ++ separated comma rest

mutual

/-- The one-line layout. -/
def compactChars : Json → List Char
  | .null => ['n', 'u', 'l', 'l']
  | .bool true => ['t', 'r', 'u', 'e']
  | .bool false => ['f', 'a', 'l', 's', 'e']
  | .number written => written.toList
  | .string written => quoted written
  | .array items => '[' :: separated [','] (compactItems items) ++ [']']
  | .object members => '\x7b' :: separated [','] (compactMembers members) ++ ['\x7d']

/-- The items of an array, each in the one-line layout. -/
def compactItems : List Json → List (List Char)
  | [] => []
  | item :: rest => compactChars item :: compactItems rest

/-- The members of an object, each in the one-line layout. -/
def compactMembers : List (List Char × Json) → List (List Char)
  | [] => []
  | (name, value) :: rest => (quoted name ++ ':' :: compactChars value) :: compactMembers rest

end

/-- The text of a value on one line. -/
def compact (j : Json) : String := String.ofList j.compactChars

/-- A line end and the blanks of a level of indentation. -/
def newLine (level : Nat) : List Char := '\n' :: List.replicate (2 * level) ' '

mutual

/-- The layout with one value a line, inside `level` brackets. -/
def prettyChars (level : Nat) : Json → List Char
  | .array (item :: rest) =>
    '[' :: newLine (level + 1)
      ++ separated (',' :: newLine (level + 1)) (prettyItems (level + 1) (item :: rest))
      ++ newLine level ++ [']']
  | .object (m :: rest) =>
    '\x7b' :: newLine (level + 1)
      ++ separated (',' :: newLine (level + 1)) (prettyMembers (level + 1) (m :: rest))
      ++ newLine level ++ ['\x7d']
  | j => j.compactChars

/-- The items of an array, each with one value a line. -/
def prettyItems (level : Nat) : List Json → List (List Char)
  | [] => []
  | item :: rest => prettyChars level item :: prettyItems level rest

/-- The members of an object, each with one value a line. -/
def prettyMembers (level : Nat) : List (List Char × Json) → List (List Char)
  | [] => []
  | (name, value) :: rest =>
    (quoted name ++ ':' :: ' ' :: prettyChars level value) :: prettyMembers level rest

end

/-- The text of a value over several lines. -/
def pretty (j : Json) : String := String.ofList (j.prettyChars 0)

end Json

end PointPatch
