import LiveTemplate.Defect
import LiveTemplate.Html.Tree
import LiveTemplate.Xml.WellFormed

/-!
# Deciding the dialect of a template

The dialect is guessed from the first element.  A name that only SVG has means SVG, a name that
SVG does not have means HTML.  Six names belong to both; markup that begins with one of them is
SVG when it is a well-formed document and embeds no `svg` element of its own.
-/

namespace LiveTemplate

set_option autoImplicit false

open Text

/-- Element names that only SVG has. -/
def svgOnlyElements : List String := [
    "altGlyph", "altGlyphDef", "altGlyphItem", "animate", "animateColor", "animateMotion",
    "animateTransform", "circle", "clipPath", "color-profile", "cursor", "defs", "desc",
    "ellipse", "feBlend", "feColorMatrix", "feComponentTransfer", "feComposite",
    "feConvolveMatrix", "feDiffuseLighting", "feDisplacementMap", "feDistantLight", "feFlood",
    "feFuncA", "feFuncB", "feFuncG", "feFuncR", "feGaussianBlur", "feImage", "feMerge",
    "feMergeNode", "feMorphology", "feOffset", "fePointLight", "feSpecularLighting",
    "feSpotLight", "feTile", "feTurbulence", "filter", "font-face", "font-face-format",
    "font-face-name", "font-face-src", "font-face-uri", "foreignObject", "g", "glyph", "glyphRef",
    "hkern", "line", "linearGradient", "marker", "mask", "metadata", "missing-glyph", "mpath",
    "path", "pattern", "polygon", "polyline", "radialGradient", "rect", "set", "stop", "switch",
    "symbol", "text", "textPath", "tref", "tspan", "use", "view", "vkern"]

/-- Element names that both dialects have. -/
def sharedElements : List String := ["a", "font", "image", "script", "style", "title"]

/-- A character that may stand in the name that the guess is made from. -/
def isGuessNameChar (c : Char) : Bool :=
  !(isBlank c || c == ':' || c == '=' || c == '/' || c == '>')

/-- The position of the first `<` and the element name behind it; none for markup without any
`<`. -/
def firstElement? (markup : String) : Except TemplateError (Option (Nat × String)) :=
  let s := markup.toList
  let position := (s.takeWhile (· != '<')).length
  match s.drop position with
  | [] => .ok none
  | _ :: r =>
    let name := (r.dropWhile isBlank).takeWhile isGuessNameChar
    if name.isEmpty then .error ⟨.missingElementName, { position := some position }⟩
    else .ok (some (position, String.ofList name))

/-- Why a dialect was chosen. -/
inductive Verdict
  /-- The markup has no element. -/
  | noElement
  /-- The first element only exists in SVG. -/
  | svgOnly (name : String)
  /-- The first element does not exist in SVG. -/
  | htmlOnly (name : String)
  /-- The name is shared and the markup is not well-formed. -/
  | malformed (name : String)
  /-- The name is shared and the markup embeds SVG. -/
  | embedsSvg (name : String)
  /-- The name is shared and the markup is well-formed. -/
  | wellFormed (name : String)
  deriving DecidableEq, Repr

/-- The dialect that a verdict settles on. -/
def Verdict.dialect : Verdict → Dialect
  | .svgOnly _ | .wellFormed _ => .svg
  | _ => .html

/-- The explanation of a verdict, where there is one to give. -/
def Verdict.explanation? : Verdict → Option String
  | .noElement | .htmlOnly _ => none
  | .svgOnly name => some ("SVG mode: first element <" ++ name ++ "> only exists in SVG")
  | .malformed name => some ("HTML mode: <" ++ name ++ "> markup is not well-formed XML")
  | .embedsSvg name => some ("HTML mode: <" ++ name ++ "> markup embeds an <svg> element")
  | .wellFormed name => some ("SVG mode: <" ++ name ++ "> markup is well-formed XML")

/-- Whether markup, read as HTML, has an element of a name. -/
def embedsElement (markup name : String) : Bool :=
  match Html.trees markup with
  | .ok trees => (Tree.elementsOfAll trees).any (·.name == name)
  | .error _ => false

/-- Judges the markup of a template, its placeholders left out. -/
def judge (markup : String) : Except TemplateError Verdict := do
  match ← firstElement? markup with
  | none => return .noElement
  | some (_, name) =>
    if svgOnlyElements.contains name then return .svgOnly name
    else if !sharedElements.contains name then return .htmlOnly name
    else if !Xml.isWellFormed markup.toList then return .malformed name
    else if embedsElement markup "svg" then return .embedsSvg name
    else return .wellFormed name

end LiveTemplate
