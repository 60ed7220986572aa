/-
PointPatch/Schema/Document.lean

Schemas from schema documents.

The outermost element holds one element for each dimension, in any order.
Each states its position, counted from one, and the positions have to fill
the slots exactly.  Further elements may ask for the form that patches are
compressed to.  Elements are known by the label of their name; what an
element says is the text that it begins with.

Reading a document is reported: `documentNotices` lists the elements that
were passed over, up to the place where reading ends, and what was read.
-/
import PointPatch.Double.Decimal
import PointPatch.Markup.Tree
import PointPatch.Notice

namespace PointPatch

open Markup

/-! ### Dimensions -/

/-- What one element inside a dimension says. -/
inductive Statement where
  | name (text : String)
  | description (text : String)
  | position (slot : Nat)
  | type (type : Interpretation)
  | scale (value : Double)
  | offset (value : Double)
  | isActive (value : Bool)
  /-- Something that is not made use of. -/
  | unused
  /-- Something that is not known. -/
  | unknown (label : String)
deriving DecidableEq, Repr

namespace Statement

/-- The natural number below `2 ^ 64` that a text writes, with or without a plus sign. -/
def nat? (text : String) : Option Nat :=
  let ds := match text.toList with
    | '+' :: ds => ds
    | ds => ds
  (number? 10 ds).filter (· < Nat.pow 2 64)

/-- Whether a text says yes: the word for it, or a number of eight bytes other than zero. -/
def isYes (text : String) : Bool :=
  Text.sameWord text "true" ||
    match text.toList with
    | '-' :: ds => (number? 10 ds).any fun n => n != 0 && n ≤ Nat.pow 2 63
    | _ => (nat? text).any fun n => n != 0 && n < Nat.pow 2 63

/-- The number that a text writes, or a fault about the field. -/
def readDouble (field text : String) : Except Fault Double :=
  match Double.ofText? text.toList with
  | some value => .ok value
  | none => .error (.unreadableNumber field text)

/-- The slot of a position that counts from one, or a fault. -/
def readPosition (text : String) : Except Fault Nat :=
  match nat? text with
  | none => .error (.unreadableNumber "position" text)
  | some 0 => .error .positionZero
  | some (slot + 1) => .ok slot

/-- What the element with a label and a text says. -/
def ofText (label text : String) : Except Fault Statement :=
  if label = "name" then .ok (.name text)
  else if label = "description" then .ok (.description text)
  else if label = "active" then .ok (.isActive (isYes text))
  else if label = "position" then (readPosition text).map .position
  else if label = "interpretation" then (Interpretation.ofToken text).map .type
  else if label = "scale" then (readDouble label text).map .scale
  else if label = "offset" then (readDouble label text).map .offset
  else if label ∈ ["size", "uuid", "parent_uuid"] then .ok .unused
  else .ok (.unknown label)

/-- What an element inside a dimension says. -/
def ofNode (n : Node) : Except Fault Statement :=
  ofText (n.label?.getD "") (Text.trim n.content)

end Statement

/-- What is known of a dimension while its statements are read. -/
structure Dimension.Draft where
  name : Option String := none
  description : String := ""
  position : Option Nat := none
  type : Option Interpretation := none
  scale : Double := .one
  offset : Double := .zero
  isActive : Bool := false
deriving DecidableEq, Repr

namespace Dimension

/-- Takes a statement over; a later one replaces an earlier one. -/
def Draft.add (d : Draft) : Statement → Draft
  | .name text => { d with name := some text }
  | .description text => { d with description := text }
  | .position slot => { d with position := some slot }
  | .type type => { d with type := some type }
  | .scale value => { d with scale := value }
  | .offset value => { d with offset := value }
  | .isActive value => { d with isActive := value }
  | .unused | .unknown _ => d

/-- The dimension, if its name, its position and its type are known. -/
def Draft.finish (d : Draft) : Except Fault Dimension :=
  match d.name, d.position, d.type with
  | some name, some position, some type =>
    .ok { name, position, type, description := d.description, scale := d.scale,
          offset := d.offset, isActive := d.isActive }
  | none, _, _ => .error (.missingField "name")
  | _, none, _ => .error (.missingField "position")
  | _, _, none => .error (.missingField "interpretation")

/-- The dimension that an element describes. -/
def ofNode (n : Node) : Except Fault Dimension := do
  let statements ← n.elements.mapM Statement.ofNode
  (statements.foldl Draft.add {}).finish

end Dimension

/-- The statements that the elements make, up to the first one that cannot be read. -/
def Statement.readable : List Node → List Statement
  | [] => []
  | n :: rest =>
    match ofNode n with
    | .ok s => s :: readable rest
    | .error _ => []

/-- The elements inside a dimension that are not known, up to the first one that cannot be
read. -/
def Dimension.unknownNotices (n : Node) : List Notice :=
  (Statement.readable n.elements).filterMap fun
    | .unknown label => some (.unhandledElement label)
    | _ => none

/-! ### Schemas -/

namespace Schema

/-- Puts a dimension into its slot, which has to exist and to be empty. -/
def place (s : Schema) (d : Dimension) : Except Fault Schema :=
  if s.slotCount ≤ d.position then .error (.positionBeyondCount (d.position + 1) s.slotCount)
  else if (s.dimension? d.position).isSome then .error (.positionTaken (d.position + 1))
  else s.set d

/-- Puts the dimension that an element describes into its slot. -/
def placeNode (s : Schema) (n : Node) : Except Fault Schema := do
  s.place (← Dimension.ofNode n)

/-- The forms that a document asks for. -/
def targets (root : Node) : List Representation :=
  ((root.elementsLabelled "metadata").flatMap (Node.elementsLabelled · "Metadata")).filterMap
    fun n =>
      if n.attribute? "name" = some "compression" then some (Representation.ofMetadata n.content)
      else none

/-- The label of the outermost element. -/
def rootLabel : String := "PointCloudSchema"

/-- The elements of the dimensions. -/
def dimensionNodes (root : Node) : List Node := root.elementsLabelled "dimension"

/-- A schema with an empty slot for each element of a dimension. -/
def blank (root : Node) (pcid srid : UInt32) : Schema :=
  { vacant (dimensionNodes root).length with pcid, srid }

/-- The schema that an outermost element describes. -/
def ofRoot (root : Node) (pcid srid : UInt32) : Except Fault Schema := do
  if root.label? ≠ some rootLabel then throw (.unexpectedRoot (root.label?.getD ""))
  let filled ← (dimensionNodes root).foldlM placeNode (blank root pcid srid)
  return { filled.resolveXY with target := (targets root).getLast?.getD .rows }

/-- The outermost element of a document, which begins at the first opening bracket. -/
def documentRoot (document : String) : Except Fault Node :=
  match document.toList.dropWhile (· != '<') with
  | [] => .error .noElement
  | cs =>
    match Markup.parse? cs with
    | some root => .ok root
    | none => .error .malformedDocument

/-- The schema that a document describes. -/
def ofDocument (document : String) (pcid srid : UInt32) : Except Fault Schema := do
  ofRoot (← documentRoot document) pcid srid

/-! ### Notices -/

/-- What is reported about the elements of dimensions, up to the first one that has no place. -/
def placeNotices (s : Schema) : List Node → List Notice
  | [] => []
  | n :: rest =>
    Dimension.unknownNotices n ++
      match s.placeNode n with
      | .ok s => s.placeNotices rest
      | .error _ => []

/-- What is reported when a schema has been read. -/
def readNotices (s : Schema) : List Notice :=
  s.xyNotices ++ [.documentRead s.pcid s.slotCount s.size s.target]

/-- What is reported when the schema of an outermost element is read. -/
def rootNotices (root : Node) (pcid srid : UInt32) : List Notice :=
  if root.label? ≠ some rootLabel then []
  else
    (blank root pcid srid).placeNotices (dimensionNodes root) ++
      match ofRoot root pcid srid with
      | .ok s => s.readNotices
      | .error _ => []

/-- What is reported when a document is read. -/
def documentNotices (document : String) (pcid srid : UInt32) : List Notice :=
  match documentRoot document with
  | .ok root => rootNotices root pcid srid
  | .error _ => []

end Schema

end PointPatch
