import LiveTemplate.Text.WidthTable
import LiveTemplate.Text.Ranges

/-!
# The number of terminal columns a text takes
-/

namespace LiveTemplate.Text

set_option autoImplicit false

/-- The columns of one character: two for a wide one, none for a combining mark or a control. -/
def charColumns (c : Char) : Nat :=
  let n := c.toNat
  if n < 0x20 || (0x7F ≤ n && n < 0xA0) then 0
  else if n < 0x300 then 1
  else if inRanges combiningRanges n then 0
  else if inRanges wideRanges n then 2
  else 1

/-- The columns of a text. -/
def columns (s : List Char) : Nat := (s.map charColumns).foldr (· + ·) 0

end LiveTemplate.Text
