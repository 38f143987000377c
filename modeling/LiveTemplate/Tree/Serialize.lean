import LiveTemplate.Tree.Basic

/-!
# Writing trees as markup

Attributes are written in the order of their names.  The text of scripts and style sheets is
written as it is when the outermost node that is written is HTML; all other text is escaped.
-/

namespace LiveTemplate

set_option autoImplicit false

namespace Serialize

/-- A character of text or of an attribute value. -/
def escapeChar : Char → List Char
  | '&' => "&amp;".toList
  | '<' => "&lt;".toList
  | '>' => "&gt;".toList
  | c => [c]

/-- Text with the delimiters of markup escaped. -/
def escape (s : List Char) : List Char := s.flatMap escapeChar

/-- A value between quotes: single ones if it holds double quotes and no single ones. -/
def quote (s : List Char) : List Char :=
  if s.contains '"' then
    if s.contains '\'' then
      '"' :: s.flatMap (fun c => if c == '"' then "&quot;".toList else [c]) ++ ['"']
    else '\'' :: s ++ ['\'']
  else '"' :: s ++ ['"']

/-- One attribute, with the blank in front of it. -/
def attributeText (a : String × String) : List Char :=
  ' ' :: a.1.toList ++ '=' :: quote (escape a.2.toList)

/-- The attributes of a tag, ordered by name. -/
def attributesText (as : Attributes) : List Char :=
  (as.mergeSort fun a b => a.1 ≤ b.1).flatMap attributeText

/-- Whether text inside an element of this name is written as it is. -/
def isRawText (d : Dialect) (parent : Option String) : Bool :=
  d == .html && (parent == some "script" || parent == some "style")

/-- A leaf inside an element of the given name. -/
def leafText (d : Dialect) (parent : Option String) : Leaf → List Char
  | .text s => if isRawText d parent then s.toList else escape s.toList
  | .sentinel => []
  | .comment s => "<!--".toList ++ s.toList ++ "-->".toList
  | .cdata s => "<![CDATA[".toList ++ s.toList ++ "]]>".toList
  | .instruction s .html => "<?".toList ++ s.toList ++ ['>']
  | .instruction s .svg => "<?".toList ++ s.toList ++ "?>".toList
  | .declaration s => "<?".toList ++ s.toList ++ "?>".toList
  | .doctype s => "<!DOCTYPE ".toList ++ s.toList ++ ['>', '\n']

/-- The start tag of an element, or its only tag. -/
def startTag (e : Element) (isOnly : Bool) : List Char :=
  '<' :: e.tagName.toList ++ attributesText e.attributes
    ++ (if isOnly then ['/', '>'] else ['>'])

/-- The end tag of an element. -/
def endTag (e : Element) : List Char := '<' :: '/' :: e.tagName.toList ++ ['>']

mutual
/-- A tree inside an element of the given name, by the rules of a dialect. -/
def treeText (d : Dialect) (parent : Option String) : Tree → List Char
  | .leaf l => leafText d parent l
  | .element e [] => if e.single then startTag e true else startTag e false ++ endTag e
  | .element e (t :: rest) =>
    startTag e false ++ treeText d (some e.name) t ++ treesText d (some e.name) rest ++ endTag e

/-- Trees one after another. -/
def treesText (d : Dialect) (parent : Option String) : List Tree → List Char
  | [] => []
  | t :: rest => treeText d parent t ++ treesText d parent rest
end

end Serialize

/-- The dialect whose rules write a tree that stands alone. -/
def Tree.dialect : Tree → Dialect
  | .leaf _ => .html
  | .element e _ => e.dialect.getD .html

/-- Trees that stand alone, each written by its own rules. -/
def Tree.markup (trees : List Tree) : String :=
  String.ofList (trees.flatMap fun t => Serialize.treeText t.dialect none t)

end LiveTemplate
