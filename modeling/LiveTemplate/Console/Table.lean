import LiveTemplate.Console.Wrap

/-!
# Tables

A table has a title row between heavy lines and its entries between light ones.  Every column is
as wide as its widest cell.  A cell may hold style tags, which are not shown: a lower-case word
in square brackets is one.  Brackets that hold anything else, and a tag behind a backslash, are
shown.
-/

namespace LiveTemplate.Console

set_option autoImplicit false

open Text

/-- A column: its title, and whether its cells stand at its right edge. -/
structure Column where
  title : String
  alignRight : Bool := false
  deriving DecidableEq, Repr

/-- A character that a style tag can begin with. -/
def beginsTag (c : Char) : Bool :=
  (97 ≤ c.toNat && c.toNat ≤ 122) || c == '#' || c == '/' || c == '@'

/-- The style tag at the head of a text behind its opening bracket, with the closing one, and what
follows it. -/
def readTag? (s : List Char) : Option (List Char × List Char) :=
  let tag := s.takeWhile fun c => c != ']' && c != '['
  match tag, s.drop tag.length with
  | first :: _, ']' :: rest => if beginsTag first then some (tag ++ [']'], rest) else none
  | _, _ => none

/-- A cell without its style tags, read for at most `count` brackets and backslashes.  Of
backslashes in front of a tag one in two is shown, and an odd one shows the tag. -/
def unstyled (s : List Char) : Nat → List Char
  | 0 => s
  | count + 1 =>
    let plain := s.takeWhile fun c => c != '[' && c != '\\'
    let marked := s.drop plain.length
    let slashes := (marked.takeWhile (· == '\\')).length
    plain ++
      match marked.drop slashes with
      | [] => List.replicate slashes '\\'
      | '[' :: inner =>
        match readTag? inner with
        | some (tag, rest) =>
          List.replicate (slashes / 2) '\\' ++ (if slashes % 2 = 1 then '[' :: tag else [])
            ++ unstyled rest count
        | none => List.replicate (slashes - 1) '\\' ++ '[' :: unstyled inner count
      | behind => List.replicate slashes '\\' ++ unstyled behind count

/-- A cell as it is shown. -/
def showCell (s : String) : List Char :=
  let s := s.toList
  (unstyled s s.length).filter fun c => !isConsoleControl c

/-- A cell filled up to a width. -/
def pad (alignRight : Bool) (width : Nat) (cell : List Char) : List Char :=
  let gap := List.replicate (width - columns cell) ' '
  if alignRight then gap ++ cell else cell ++ gap

/-- A line of a table: pieces between the given ends and separators. -/
def joinPieces (left between right : Char) (pieces : List (List Char)) : List Char :=
  left :: List.intercalate [between] pieces ++ [right]

/-- A table of columns and rows, line by line. -/
def table (titles : List Column) (rows : List (List String)) : List (List Char) :=
  let header := titles.map fun t => showCell t.title
  let body := rows.map (·.map showCell)
  let widths := header.mapIdx fun i title =>
    ((title :: body.map fun row => row.getD i []).map columns).foldl max 0
  let rule (left line between right : Char) : List Char :=
    joinPieces left between right (widths.map fun w => List.replicate (w + 2) line)
  let row (edge : Char) (cells : List (List Char)) : List Char :=
    joinPieces edge edge edge <|
      (List.zip cells (List.zip titles widths)).map fun (cell, t, width) =>
        ' ' :: pad t.alignRight width cell ++ [' ']
  [rule '┏' '━' '┳' '┓', row '┃' header, rule '┡' '━' '╇' '┩']
    ++ body.map (row '│') ++ [rule '└' '─' '┴' '┘']

end LiveTemplate.Console
