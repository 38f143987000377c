import LiveTemplate.Text.Blank
import LiveTemplate.Text.Columns

/-!
# Wrapping lines

A line that is wider than the console continues on the next one.  It breaks between words; a word
that is wider than a whole line is cut wherever it must be.  The blanks behind a word belong to
it and may stick out.
-/

namespace LiveTemplate.Console

set_option autoImplicit false

open Text

/-- Characters that a console would act upon instead of showing them. -/
def isConsoleControl (c : Char) : Bool := [7, 8, 11, 12, 13].contains c.toNat

/-- The lines of a text. -/
def splitLines (s : List Char) : List (List Char) :=
  match s with
  | [] => [[]]
  | c :: rest =>
    if c = '\n' then [] :: splitLines rest
    else
      match splitLines rest with
      | [] => [[c]]
      | line :: lines => (c :: line) :: lines

/-- A line from a column on, with spaces up to the next multiple of eight for every tab. -/
def expandTabs (column : Nat) : List Char → List Char
  | [] => []
  | c :: rest =>
    if c = '\t' then
      let width := 8 - column % 8
      List.replicate width ' ' ++ expandTabs (column + width) rest
    else c :: expandTabs (column + charColumns c) rest

/-- A line as its words: blanks, then a word and the blanks behind it.  `inside` tells that a word
has begun. -/
def wordsFrom (word : List Char) (inside : Bool) : List Char → List (List Char)
  | [] => if word.isEmpty then [] else [word.reverse]
  | c :: rest =>
    if isBlank c then wordsFrom (c :: word) inside rest
    else
      match word with
      | last :: _ =>
        if inside && isBlank last then word.reverse :: wordsFrom [c] true rest
        else wordsFrom (c :: word) true rest
      | [] => wordsFrom [c] true rest

/-- The words of a line. -/
def words (line : List Char) : List (List Char) := wordsFrom [] false line

/-- A word cut into pieces that fit the given width, of which one is begun. -/
def chop (width : Nat) (piece : List Char) (used : Nat) : List Char → List (List Char)
  | [] => [piece.reverse]
  | c :: rest =>
    let w := charColumns c
    if used + w > width then piece.reverse :: chop width [c] w rest
    else chop width (c :: piece) (used + w) rest

/-- Lines while they are being filled: the finished ones, last first, and the one in hand. -/
structure Wrapping where
  finished : List (List Char) := []
  line : List Char := []
  used : Nat := 0

namespace Wrapping

/-- Finishes the line in hand, unless nothing has been put on the first one. -/
def nextLine (w : Wrapping) : Wrapping :=
  if w.finished.isEmpty && w.line.isEmpty then w
  else { finished := w.line :: w.finished }

/-- Puts text on the line in hand. -/
def put (w : Wrapping) (s : List Char) : Wrapping :=
  { w with line := w.line ++ s, used := w.used + columns s }

/-- Puts a word where there is room for it. -/
def putWord (width : Nat) (w : Wrapping) (word : List Char) : Wrapping :=
  let needed := columns (trimRight word)
  if w.used + needed ≤ width then w.put word
  else if needed > width then
    (chop width [] 0 word).foldl (fun w piece => w.nextLine.put piece) w
  else w.nextLine.put word

end Wrapping

/-- A line broken into lines of the given width. -/
def wrap (width : Nat) (line : List Char) : List (List Char) :=
  let w := (words line).foldl (Wrapping.putWord width) {}
  (w.line :: w.finished).reverse

/-- A text as it appears on a console of the given width. -/
def layOut (width : Nat) (s : List Char) : List (List Char) :=
  (splitLines (s.filter fun c => !isConsoleControl c)).flatMap fun line =>
    wrap width (expandTabs 0 line)

end LiveTemplate.Console
