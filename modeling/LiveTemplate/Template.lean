import LiveTemplate.Fault
import LiveTemplate.Notice
import LiveTemplate.Scan
import LiveTemplate.Xml.Tree

/-!
# Templates

A template is compiled from its literal fragments: its dialect is decided, the fragments are
scanned, and the marked markup is parsed into trees.  The trees are accepted only if parsing has
kept one marker for every placeholder.  A compiled template never changes.
-/

namespace LiveTemplate

set_option autoImplicit false

/-- How templates are compiled. -/
structure Settings where
  /-- The name of the parser that reads HTML. -/
  htmlParser : String := "html.parser"
  markers : Markers := {}
  /-- Whether compiled templates are kept. -/
  caching : Bool := true
  /-- How many compiled templates are kept. -/
  cacheRoom : Int := 256
  /-- Whether notices are given. -/
  debug : Bool := false
  deriving DecidableEq, Repr, Inhabited

/-- Settings that leave room for at least one template. -/
def Settings.check (s : Settings) : Except Fault Unit :=
  if s.cacheRoom < 1 then .error .noCacheRoom else .ok ()

/-- A compiled template. -/
structure Template where
  placeholders : Nat
  dialect : Dialect
  markers : Markers
  /-- The markup with its markers. -/
  markup : String
  /-- The parsed markup, markers included. -/
  trees : List Tree
  deriving Repr, Inhabited

/-- The number of placeholders that the markers on one element stand for. -/
def Markers.countOn (m : Markers) (e : Element) : Nat :=
  (match e.attributes.get? m.attributes with
    | some names => (split names.toList).length
    | none => 0)
  + if e.attributes.has m.nodes then 1 else 0

/-- The number of placeholders that the markers in trees stand for. -/
def Markers.count (m : Markers) (trees : List Tree) : Nat :=
  ((Tree.elementsOfAll trees).map m.countOn).foldr (· + ·) 0

/-- A way to read markup: the trees of a text in a dialect, by the parser of a name if the dialect
is HTML. -/
abbrev MarkupReader := String → Dialect → String → Except Fault (List Tree)

/-- The parsers that read HTML. -/
def htmlParsers : List String := ["html.parser", "lxml", "html5lib"]

/-- The trees of markup in a dialect. -/
def parseMarkup : MarkupReader := fun htmlParser d markup =>
  match d with
  | .svg => .ok (Xml.trees markup)
  | .html =>
    if htmlParsers.contains htmlParser then
      match Html.trees markup with
      | .ok trees => .ok trees
      | .error _ => .error .unreadable
    else .error (.unknownParser htmlParser)

namespace Template

/-- Decides the dialect of a template unless it is given, with the notices of doing so. -/
def decideDialect (fragments : List String) (forced : Option Dialect) :
    Except Fault Dialect × List Notice :=
  match forced with
  | some d => (.ok d, [])
  | none =>
    match judge (String.join fragments) with
    | .ok verdict => (.ok verdict.dialect, [.judged verdict])
    | .error e => (.error (.defective e), [])

/-- Compiles a template in a dialect, whatever reads its markup. -/
def buildWith (parse : MarkupReader) (s : Settings) (fragments : List String) (d : Dialect) :
    Except Fault Template := do
  let scanned ← match (scan s.markers d fragments).1 with
    | .ok scanned => pure scanned
    | .error e => throw (.defective e)
  let markup := String.join scanned
  let trees ← parse s.htmlParser d markup
  let placeholders := fragments.length - 1
  let found := s.markers.count trees
  if found = placeholders then
    return { placeholders, dialect := d, markers := s.markers, markup, trees }
  else throw (.defective ⟨.markersChanged placeholders found, {}⟩)

/-- Compiles a template in a dialect. -/
def build (s : Settings) (fragments : List String) (d : Dialect) : Except Fault Template :=
  buildWith parseMarkup s fragments d

/-- Compiles a template from its fragments, whatever reads its markup, with the notices of doing
so. -/
def compileWith (parse : MarkupReader) (s : Settings) (fragments : List String)
    (forced : Option Dialect) : Except Fault Template × List Notice :=
  match decideDialect fragments forced with
  | (.error fault, notices) => (.error fault, notices)
  | (.ok d, notices) =>
    (buildWith parse s fragments d, notices ++ [.compiling fragments.length d])

/-- A short description of a template. -/
def summary (t : Template) : String :=
  "StaticTemplate(" ++ t.dialect.label ++ ", placeholders=" ++ toString t.placeholders ++ ")"

end Template

end LiveTemplate
