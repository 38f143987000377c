import LiveTemplate.Defect
import LiveTemplate.Markers
import LiveTemplate.Text.Blank
import LiveTemplate.Text.LowerCase

/-!
# Scanning the fragments of a template

The literal fragments of a template are read once, character by character.  Wherever a fragment
ends there is a placeholder, and what stands for it depends on where the reading is at that
moment:

* in text, an empty marker element is appended to the fragment;
* inside a tag, the name of the attribute whose value is being read, or the empty name when none
  is, is put on a list, and the list is written as one marker attribute when the tag ends;
* inside a comment there is no place for a marker, so the template is refused.

`Cursor.next` is the whole grammar: it says where the reading stands after one more character.
The characters read are written unchanged; markers are only ever inserted between them, and an
inserted marker is never read again.
-/

namespace LiveTemplate

set_option autoImplicit false

open Text

/-- Where the reading of markup stands. -/
inductive Cursor
  /-- Outside tags and comments. -/
  | text
  /-- Behind the `<` of a tag. -/
  | opening
  /-- Behind `<!`. -/
  | bang
  /-- Behind `<!-`. -/
  | bangDash
  /-- Before the element name, behind an optional slash. -/
  | beforeName
  /-- In the element name. -/
  | elementName
  /-- Between the attributes of a tag. -/
  | between
  /-- In the name of an attribute. -/
  | attributeName (name : List Char)
  /-- In the blanks behind the name of an attribute. -/
  | afterAttribute (name : List Char)
  /-- Behind the equals sign of an attribute. -/
  | beforeValue (name : List Char)
  /-- In an unquoted value, behind its first character. -/
  | unquoted (name : List Char)
  /-- In a quoted value; `carried` tells that the quote was opened in an earlier fragment. -/
  | quoted (quote : Char) (name : List Char) (carried : Bool)
  /-- In a comment, behind the given number of dashes, of which two count. -/
  | comment (dashes : Nat)
  deriving DecidableEq, Repr

namespace Cursor

/-- One more character of the element name, or the end of it. -/
def nextInName (c : Char) : Cursor :=
  if c = '>' then .text else if isBlank c || c = '/' then .between else .elementName

/-- One more character where an attribute may begin. -/
def nextBetween (c : Char) : Cursor :=
  if c = '>' then .text
  else if isBlank c || c = '/' then .between
  else if c = '=' then .beforeValue []
  else .attributeName [c]

/-- Where the reading stands after one more character. -/
def next : Cursor → Char → Cursor
  | .text, c => if c = '<' then .opening else .text
  | .opening, c =>
    if c = '!' then .bang else if isBlank c || c = '/' then .beforeName else nextInName c
  | .bang, c => if c = '-' then .bangDash else nextInName c
  | .bangDash, c => if c = '-' then .comment 0 else nextInName c
  | .beforeName, c => if isBlank c then .beforeName else nextInName c
  | .elementName, c => nextInName c
  | .between, c => nextBetween c
  | .attributeName name, c =>
    if isBlank c then .afterAttribute name
    else if c = '=' then .beforeValue name
    else if c = '/' || c = '>' then nextBetween c
    else .attributeName (name ++ [c])
  | .afterAttribute name, c =>
    if isBlank c then .afterAttribute name
    else if c = '=' then .beforeValue name
    else nextBetween c
  | .beforeValue name, c =>
    if isBlank c then .beforeValue name
    else if c = '"' || c = '\'' then .quoted c name false
    else if c = '>' then .text
    else .unquoted name
  | .unquoted name, c =>
    if isBlank c then .between else if c = '>' then .text else .unquoted name
  | .quoted quote name carried, c => if c = quote then .between else .quoted quote name carried
  | .comment dashes, c =>
    if c = '-' then .comment (if dashes = 0 then 1 else 2)
    else if c = '>' && dashes = 2 then .text
    else .comment 0

/-- Whether a `>` read here ends a tag. -/
def inTag : Cursor → Bool
  | .text | .quoted .. | .comment _ => false
  | _ => true

/-- The coarse state of the reading. -/
inductive Region
  | text
  | tag
  | attributeValue
  | comment
  deriving DecidableEq, Repr

/-- The region that a cursor is in.  A quoted value counts as a region of its own only from the
fragment after the one that opened it. -/
def region : Cursor → Region
  | .text => .text
  | .comment _ => .comment
  | .quoted _ _ true => .attributeValue
  | _ => .tag

end Cursor

/-- The name of a region in reports to the user. -/
def Cursor.Region.label : Cursor.Region → String
  | .text => "text"
  | .tag => "tag"
  | .attributeValue => "attribute_value"
  | .comment => "comment"

/-- What is kept from one fragment to the next: where the reading stands, and the names of the
holes of the tag that is still open. -/
structure ScanState where
  cursor : Cursor := .text
  pending : List (List Char) := []
  deriving DecidableEq, Repr

/-- The state within a fragment, with what has been written of it, last character first. -/
structure ScanProgress extends ScanState where
  written : List Char := []

namespace ScanProgress

/-- Reads one character.  The end of a tag with holes writes their marker attribute in front of
it, and in front of a slash that directly precedes it. -/
def read (m : Markers) (p : ScanProgress) (c : Char) : ScanProgress :=
  if c = '>' && p.cursor.inTag && !p.pending.isEmpty then
    let note := (m.note p.pending).reverse
    let written := match p.written with
      | '/' :: before => '/' :: (note ++ before)
      | before => note ++ before
    ⟨⟨.text, []⟩, c :: written⟩
  else ⟨⟨p.cursor.next c, p.pending⟩, c :: p.written⟩

end ScanProgress

/-- The spelling of an attribute name in a marker: HTML readers put names in lower case. -/
def spellName (d : Dialect) (name : List Char) : List Char :=
  match d with
  | .html => lower name
  | .svg => name

/-- What the end of a fragment leaves behind when a placeholder follows it: the text to append,
the name to put on the list, and the cursor at the start of the next fragment. -/
structure Cut where
  appended : List Char := []
  queued : Option (List Char) := none
  cursor : Cursor

/-- The placeholder behind a fragment that ends at a cursor outside comments. -/
def Cursor.cut (m : Markers) (d : Dialect) : Cursor → Cut
  | .text => { appended := m.element d, cursor := .text }
  | .beforeValue name =>
    { appended := ['"', '"'], queued := some (spellName d name), cursor := .between }
  | .unquoted name => { queued := some (spellName d name), cursor := .between }
  | .quoted quote name _ =>
    { queued := some (spellName d name), cursor := .quoted quote (spellName d name) true }
  | _ => { queued := some [], cursor := .between }

/-- Ends a fragment: leaves the marker of the placeholder that follows it, if one does. -/
def ScanProgress.finish (m : Markers) (d : Dialect) (index : Nat) (isLast : Bool)
    (p : ScanProgress) : Except TemplateError (List Char) × ScanState :=
  let place : Place := { fragment := some index, position := some p.written.length }
  match p.cursor with
  | .comment _ => (.error ⟨.endsInsideComment, place⟩, p.toScanState)
  | .text =>
    if isLast then (.ok p.written.reverse, p.toScanState)
    else (.ok (p.written.reverse ++ (p.cursor.cut m d).appended), p.toScanState)
  | cursor =>
    if isLast then (.error ⟨.endsInsideTag, place⟩, p.toScanState)
    else
      let cut := cursor.cut m d
      (.ok (p.written.reverse ++ cut.appended), ⟨cut.cursor, p.pending ++ cut.queued.toList⟩)

/-- Scans one fragment. -/
def scanFragment (m : Markers) (d : Dialect) (state : ScanState) (index : Nat) (isLast : Bool)
    (fragment : List Char) : Except TemplateError (List Char) × ScanState :=
  (fragment.foldl (ScanProgress.read m) { toScanState := state }).finish m d index isLast

/-- Scans the fragments from the given index on, up to the first defect. -/
def scanFrom (m : Markers) (d : Dialect) (state : ScanState) (index : Nat) :
    List (List Char) → Except TemplateError (List (List Char)) × ScanState
  | [] => (.ok [], state)
  | fragment :: rest =>
    match scanFragment m d state index rest.isEmpty fragment with
    | (.error e, state) => (.error e, state)
    | (.ok written, state) =>
      match scanFrom m d state (index + 1) rest with
      | (.error e, state) => (.error e, state)
      | (.ok others, state) => (.ok (written :: others), state)

/-- Scans all fragments of a template from the start, whatever was scanned before: the marked
fragments, or the first defect, and the state at the end. -/
def scan (m : Markers) (d : Dialect) (fragments : List String) :
    Except TemplateError (List String) × ScanState :=
  match scanFrom m d {} 0 (fragments.map String.toList) with
  | (.error e, state) => (.error e, state)
  | (.ok written, state) => (.ok (written.map String.ofList), state)

/-- A scanner is made once and used for any number of templates.  It keeps the state in which its
last scan has ended, or failed. -/
structure Scanner where
  markers : Markers := {}
  dialect : Dialect := .html
  state : ScanState := {}

namespace Scanner

/-- Forgets what the last scan has left. -/
def reset (x : Scanner) : Scanner := { x with state := {} }

/-- Scans the fragments of a template from the start. -/
def scan (x : Scanner) (fragments : List String) :
    Except TemplateError (List String) × Scanner :=
  let x := x.reset
  match scanFrom x.markers x.dialect x.state 0 (fragments.map String.toList) with
  | (.error e, state) => (.error e, { x with state })
  | (.ok written, state) => (.ok (written.map String.ofList), { x with state })

end Scanner

end LiveTemplate
