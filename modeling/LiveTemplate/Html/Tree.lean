import LiveTemplate.Html.Token
import LiveTemplate.Tree.Builder

/-!
# Trees of HTML

The elements of an HTML text nest as its tags do: no end tag is ever implied.  A void element
ends at once, an end tag without an open element is ignored, and what is open at the end of the
text ends there.

A void element may still be followed by an end tag.  So one end tag is passed over for every void
element that ended by itself, the next one of its name wherever it stands.
-/

namespace LiveTemplate.Html

set_option autoImplicit false

/-- Elements that never have content. -/
def voidElements : List String := [
    "area", "base", "br", "col", "embed", "hr", "img", "input", "link", "meta", "param", "source",
    "track", "wbr", "basefont", "bgsound", "command", "frame", "image", "isindex", "nextid",
    "spacer", "menuitem", "keygen"]

/-- Elements inside which spacing is kept as it is. -/
def verbatimElements : List String := ["pre", "textarea"]

/-- The element that a start tag begins. -/
def elementOf (name : String) (attributes : List (String × String)) : Element where
  name := name
  attributes := Attributes.ofList attributes
  single := voidElements.contains name
  dialect := some .html

/-- The state of reading: the trees built so far, and the void elements that have ended by
themselves and may still be followed by an end tag. -/
structure Reading where
  builder : TreeBuilder := { verbatim := verbatimElements }
  ended : List String := []

namespace Reading

/-- Builds on. -/
def build (r : Reading) (change : TreeBuilder → TreeBuilder) : Reading :=
  { r with builder := change r.builder }

/-- Begins an element, and ends it if its tag closes itself or it is void. -/
def startTag (r : Reading) (name : String) (attributes : List (String × String))
    (closed : Bool) : Reading :=
  let r := r.build (·.start (elementOf name attributes))
  if closed then r.build (·.endNamed name)
  else if voidElements.contains name then
    { r.build (·.endNamed name) with ended := name :: r.ended }
  else r

/-- Ends an element, unless the end tag is passed over. -/
def endTag (r : Reading) (name : String) : Reading :=
  if r.ended.contains name then { r with ended := r.ended.erase name }
  else r.build (·.endNamed name)

/-- Reads one token. -/
def next (r : Reading) : Token → Reading
  | .text s => r.build (·.read s)
  | .startTag name attributes closed => r.startTag name attributes closed
  | .endTag name => r.endTag name
  | .comment s => r.build (·.addLeaf .comment s)
  | .doctype s => r.build (·.addLeaf .doctype s)
  | .cdata s => r.build (·.addLeaf .cdata s)
  | .declaration s => r.build (·.addLeaf .declaration s)
  | .instruction s => r.build (·.addLeaf (.instruction · .html) s)

end Reading

/-- The trees of an HTML text. -/
def trees (markup : String) : Except Rejection (List Tree) := do
  let tokens ← tokens markup.toList
  return (tokens.foldl Reading.next {}).builder.finish

end LiveTemplate.Html
