/-
PointPatch/Markup/Tree.lean

Documents as trees of elements.

Tags are paired up, names are checked against the namespaces that are in
scope, and neighbouring stretches of text are joined.  A node keeps the label
of its name only, which is what documents are read by; an attribute also
keeps its namespace, because two attributes of one element may differ in
nothing else.
-/
import PointPatch.Markup.Token

namespace PointPatch

namespace Markup

/-- An attribute of an element. -/
structure Attribute where
  /-- The namespace of the name, where it has one. -/
  space : Option (List Char)
  /-- The name without its qualifier. -/
  label : List Char
  /-- The value. -/
  value : List Char
deriving DecidableEq, Repr

/-- A part of a document tree. -/
inductive Node where
  | element (label : String) (attributes : List Attribute) (children : List Node)
  | text (content : String)
  /-- A comment or a processing instruction. -/
  | aside
deriving Repr

namespace Node

/-- The label of an element; other nodes have none. -/
def label? : Node → Option String
  | element label .. => some label
  | _ => none

/-- The nodes directly inside an element. -/
def children : Node → List Node
  | element _ _ children => children
  | _ => []

/-- The elements directly inside an element. -/
def elements (n : Node) : List Node := n.children.filter fun c => c.label?.isSome

/-- The elements with a label directly inside an element. -/
def elementsLabelled (n : Node) (label : String) : List Node :=
  n.children.filter fun c => c.label? == some label

/-- The text that an element begins with; nothing where it begins with another node. -/
def content (n : Node) : String :=
  match n.children with
  | text content :: _ => content
  | _ => ""

/-- The value of an attribute that has no namespace. -/
def attribute? (n : Node) (label : String) : Option String :=
  match n with
  | element _ attributes _ =>
    (attributes.find? fun a => a.space.isNone && a.label == label.toList).map fun a =>
      String.ofList a.value
  | _ => none

end Node

/-! ### Namespaces -/

/-- The namespaces in scope, by qualifier, innermost first. Without a qualifier it is the one
of unqualified elements. -/
abbrev Scope := List (List Char × List Char)

/-- The qualifier by which namespaces are declared. -/
def declaring : List Char := ['x', 'm', 'l', 'n', 's']

/-- The qualifier that is declared from the start, for attributes. -/
def reserved : List Char := ['x', 'm', 'l']

/-- The namespace of the reserved qualifier. -/
def reservedSpace : List Char :=
  ['h', 't', 't', 'p', ':', '/', '/', 'w', 'w', 'w', '.', 'w', '3', '.', 'o', 'r', 'g', '/', 'X',
    'M', 'L', '/', '1', '9', '9', '8', '/', 'n', 'a', 'm', 'e', 's', 'p', 'a', 'c', 'e']

/-- The namespace of declarations. -/
def declaringSpace : List Char :=
  ['h', 't', 't', 'p', ':', '/', '/', 'w', 'w', 'w', '.', 'w', '3', '.', 'o', 'r', 'g', '/', '2',
    '0', '0', '0', '/', 'x', 'm', 'l', 'n', 's', '/']

/-- Sorts the attributes of a tag into the namespaces it declares and the others. The two
namespaces of the standard cannot be declared, but for the reserved one under its own
qualifier; no other qualifier can be declared twice. -/
def declarations? : List (TagName × List Char) → Scope →
    Option (Scope × List (TagName × List Char))
  | [], declared => some (declared, [])
  | (name, value) :: rest, declared =>
    if name.qualifier = declaring then
      if value = declaringSpace ∨ (value = reservedSpace ↔ name.label ≠ reserved)
        ∨ declared.any (·.1 == name.label) then none
      else if value = reservedSpace then declarations? rest declared
      else declarations? rest (declared ++ [(name.label, value)])
    else if name.label = declaring then
      if value = declaringSpace ∨ value = reservedSpace then none
      else declarations? rest (declared ++ [([], value)])
    else (declarations? rest declared).map fun d => (d.1, (name, value) :: d.2)

/-- Attributes with their namespaces; none for a qualifier that is not declared or a name that
occurs twice. -/
def resolve? (scope : Scope) : List (TagName × List Char) → List Attribute →
    Option (List Attribute)
  | [], resolved => some resolved
  | (name, value) :: rest, resolved => do
    let space ←
      if name.qualifier = [] then some none
      else if name.qualifier = reserved then some (some reservedSpace)
      else (scope.lookup name.qualifier).map some
    if resolved.any fun a => a.space == space && a.label == name.label then none
    else resolve? scope rest (resolved ++ [⟨space, name.label, value⟩])

/-! ### Building -/

/-- An element that is not closed yet. -/
structure OpenElement where
  /-- The name in the opening tag. -/
  name : TagName
  /-- The attributes. -/
  attributes : List Attribute
  /-- The namespaces in scope. -/
  scope : Scope
  /-- The nodes read so far, latest first. -/
  children : List Node

namespace OpenElement

/-- The element that an opening tag begins inside a scope. -/
def ofTag? (scope : Scope) (name : TagName) (attributes : List (TagName × List Char)) :
    Option OpenElement := do
  let (declared, attributes) ← declarations? attributes []
  let scope := declared ++ scope
  let attributes ← resolve? scope attributes []
  if name.qualifier = [] ∨ name.qualifier ≠ declaring ∧ (scope.lookup name.qualifier).isSome then
    return ⟨name, attributes, scope, []⟩
  else none

/-- The closed element. -/
def close (e : OpenElement) : Node :=
  .element (String.ofList e.name.label) e.attributes e.children.reverse

/-- The element with one more node; a text is joined to one right before it. -/
def add (e : OpenElement) (node : Node) : OpenElement :=
  match node, e.children with
  | .text more, .text content :: rest => { e with children := .text (content ++ more) :: rest }
  | _, children => { e with children := node :: children }

end OpenElement

/-- What has been read of a document: the elements that are open, innermost first, and the
outermost element once it is closed. -/
structure Progress where
  /-- The elements that are not closed yet. -/
  pending : List OpenElement := []
  /-- The outermost element. -/
  root : Option Node := none

namespace Progress

/-- Adds a complete node to the innermost open element. At the top there may only be asides and
one element. -/
def add? (p : Progress) (node : Node) : Option Progress :=
  match p.pending, node with
  | e :: rest, _ => some { p with pending := e.add node :: rest }
  | [], .aside => some p
  | [], .element .. => if p.root.isNone then some { p with root := some node } else none
  | [], .text _ => none

/-- Takes one more part of the document in. -/
def step? (p : Progress) : Token → Option Progress
  | .aside => p.add? .aside
  | .text written =>
    if p.pending.isEmpty then if written.all isBlank then some p else none
    else (text? written).bind fun cs => p.add? (.text (String.ofList cs))
  | .literal written => p.add? (.text (String.ofList (literalText written)))
  | .opening name attributes isEmpty => do
    if p.pending.isEmpty && p.root.isSome then none
    else
      let scope := match p.pending with
        | e :: _ => e.scope
        | [] => []
      let e ← OpenElement.ofTag? scope name attributes
      if isEmpty then p.add? e.close else some { p with pending := e :: p.pending }
  | .closing name =>
    match p.pending with
    | e :: rest =>
      if e.name = name then Progress.add? { p with pending := rest } e.close else none
    | [] => none

end Progress

/-- The outermost element of a document. -/
def parse? (cs : List Char) : Option Node := do
  if cs.all isAllowed then
    let cs ← afterDeclaration? cs
    let tokens ← Token.all? cs.length cs
    let p ← tokens.foldlM Progress.step? {}
    if p.pending.isEmpty then p.root else none
  else none

end Markup

end PointPatch
