import LiveTemplate.Text.CaseTable
import LiveTemplate.Text.Ranges

/-!
# Lower case

The lower-case form of a text is taken character by character, with two exceptions: the capital
I with a dot becomes two characters, and a capital sigma at the end of a word becomes the final
form of the letter.
-/

namespace LiveTemplate.Text

set_option autoImplicit false

/-- The capital letter of a run moves by the run's shift. -/
def CaseRun.lower? (run : CaseRun) (n : Nat) : Option Char :=
  if run.first ≤ n && n ≤ run.last && (n - run.first) % run.step == 0 then
    some (Char.ofNat ((n : Int) + run.shift).toNat)
  else none

/-- The lower-case form of one character, whatever stands around it. -/
def lowerChar (c : Char) : List Char :=
  if c.toNat < 0x80 then [c.toLower]
  else if c.toNat == 0x130 then ['i', '\u0307']
  else [(caseRuns.findSome? (·.lower? c.toNat)).getD c]

/-- Casing looks through a character of this class. -/
def isCaseIgnorable (c : Char) : Bool := inRanges caseIgnorableRanges c.toNat

/-- A letter that has case. -/
def isCased (c : Char) : Bool := inRanges casedRanges c.toNat

/-- Whether the first character that casing does not look through is a cased letter. -/
def casedNext (s : List Char) : Bool :=
  match s.dropWhile isCaseIgnorable with
  | [] => false
  | c :: _ => isCased c

/-- Lower case of a text of which `before` stands, reversed, in front of it. -/
def lowerAfter (before : List Char) : List Char → List Char
  | [] => []
  | c :: rest =>
    (if c.toNat == 0x3A3 then
      [if casedNext before && !casedNext rest then '\u03C2' else '\u03C3']
    else lowerChar c) ++ lowerAfter (c :: before) rest

/-- The lower-case form of a text. -/
def lower (s : List Char) : List Char := lowerAfter [] s

end LiveTemplate.Text
