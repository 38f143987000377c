import LiveTemplate.Tree.Basic
import LiveTemplate.Text.Blank

/-!
# Building trees from the events of a parser

A parser reports, in document order, where elements begin and end and what stands between them.
The builder keeps the elements that are still open, innermost first, and the characters read
since the last other event.  Adjacent characters become one text; a text of spacing only
collapses to one character.
-/

namespace LiveTemplate

set_option autoImplicit false

open Text

/-- An element that is still open, with its children so far, last child first. -/
structure OpenElement where
  element : Element
  children : List Tree := []

/-- The state of building a list of trees. -/
structure TreeBuilder where
  /-- Elements inside which spacing is kept as it is. -/
  verbatim : List String := []
  /-- The open elements, innermost first. -/
  opened : List OpenElement := []
  /-- The finished trees, last one first. -/
  finished : List Tree := []
  /-- The characters not yet made into a leaf, if any event has brought some. -/
  characters : Option (List Char) := none

namespace TreeBuilder

/-- Adds a finished node to the innermost open element. -/
def add (b : TreeBuilder) (t : Tree) : TreeBuilder :=
  match b.opened with
  | [] => { b with finished := t :: b.finished }
  | inner :: outer => { b with opened := { inner with children := t :: inner.children } :: outer }

/-- Reads characters. -/
def read (b : TreeBuilder) (s : List Char) : TreeBuilder :=
  { b with characters := some (b.characters.getD [] ++ s) }

/-- Characters that are all spacing become a line feed if they hold one, and a space if not. -/
def collapse (s : List Char) : List Char :=
  if s.all isSpacing then if s.contains '\n' then ['\n'] else [' '] else s

/-- Whether spacing is kept at this point. -/
def keepsSpacing (b : TreeBuilder) : Bool :=
  b.opened.any fun o => b.verbatim.contains o.element.name

/-- Makes the characters read so far into a leaf. -/
def flush (b : TreeBuilder) (make : String → Leaf) : TreeBuilder :=
  match b.characters with
  | none => b
  | some s =>
    let content := if b.keepsSpacing then s else collapse s
    { b with characters := none }.add (.leaf (make (String.ofList content)))

/-- Ends the text read so far. -/
def flushText (b : TreeBuilder) : TreeBuilder := b.flush .text

/-- Adds a leaf other than text with the given content. -/
def addLeaf (b : TreeBuilder) (make : String → Leaf) (content : List Char) : TreeBuilder :=
  (b.flushText.read content).flush make

/-- Begins an element. -/
def start (b : TreeBuilder) (e : Element) : TreeBuilder :=
  let b := b.flushText
  { b with opened := { element := e } :: b.opened }

/-- Ends the innermost open element. -/
def endInner (b : TreeBuilder) : TreeBuilder :=
  let b := b.flushText
  match b.opened with
  | [] => b
  | inner :: outer =>
    { b with opened := outer }.add (.element inner.element inner.children.reverse)

/-- Ends the given number of open elements, innermost first. -/
def endMany (b : TreeBuilder) : Nat → TreeBuilder
  | 0 => b
  | count + 1 => b.endInner.endMany count

/-- Ends the nearest open element of a name and all elements inside it; without one, nothing but
the text ends. -/
def endNamed (b : TreeBuilder) (name : String) : TreeBuilder :=
  let b := b.flushText
  match b.opened.findIdx? (·.element.name == name) with
  | none => b
  | some depth => b.endMany (depth + 1)

/-- Ends all open elements. -/
def finish (b : TreeBuilder) : List Tree :=
  let b := b.flushText
  (b.endMany b.opened.length).finished.reverse

end TreeBuilder

end LiveTemplate
