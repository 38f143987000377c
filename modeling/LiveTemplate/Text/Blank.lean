/-!
# Blank characters

Two notions of blank occur in markup.  Inside tags every Unicode white-space character and the
four information separators set words apart; between tags only the five characters of the
keyboard's white space collapse.
-/

namespace LiveTemplate.Text

set_option autoImplicit false

/-- A character that sets words apart: Unicode white space or an information separator. -/
def isBlank (c : Char) : Bool :=
  let n := c.toNat
  (0x09 ≤ n && n ≤ 0x0D) || (0x1C ≤ n && n ≤ 0x20) || n == 0x85 || n == 0xA0 || n == 0x1680
    || (0x2000 ≤ n && n ≤ 0x200A) || n == 0x2028 || n == 0x2029 || n == 0x202F || n == 0x205F
    || n == 0x3000

/-- A character that collapses between tags: space, tab, line feed, form feed, carriage return. -/
def isSpacing (c : Char) : Bool :=
  c == ' ' || c == '\t' || c == '\n' || c == '\x0c' || c == '\r'

/-- The text without the blanks at its end. -/
def trimRight (s : List Char) : List Char :=
  (s.reverse.dropWhile isBlank).reverse

/-- Spacing between tags is blank inside them. -/
theorem isBlank_of_isSpacing {c : Char} (h : isSpacing c = true) : isBlank c = true := by
  simp only [isSpacing, Bool.or_eq_true, beq_iff_eq] at h
  rcases h with (((h | h) | h) | h) | h <;> subst h <;> decide

end LiveTemplate.Text
