import LiveTemplate.Text.PrintableTable
import LiveTemplate.Text.Ranges

/-!
# Quoted texts

A quoted text stands between single quotes, or between double quotes when it holds a single
quote and no double one.  The quote, the backslash and every character without a printed form
are written as escapes.
-/

namespace LiveTemplate.Text

set_option autoImplicit false

/-- Whether a character is written as itself. -/
def isPrintable (c : Char) : Bool :=
  if c.toNat < 0x7F then 0x20 ≤ c.toNat else !inRanges unprintableRanges c.toNat

/-- The hexadecimal digits of a number, zeros in front up to the given width. -/
def hexDigits (width n : Nat) : List Char :=
  let digits := Nat.toDigits 16 n
  List.replicate (width - digits.length) '0' ++ digits

/-- The escape of a character by its code point, as short as the code point allows. -/
def codePointEscape (c : Char) : List Char :=
  let n := c.toNat
  if n < 0x100 then '\\' :: 'x' :: hexDigits 2 n
  else if n < 0x10000 then '\\' :: 'u' :: hexDigits 4 n
  else '\\' :: 'U' :: hexDigits 8 n

/-- One character of a text quoted with `quote`. -/
def quotedChar (quote c : Char) : List Char :=
  if c == quote || c == '\\' then ['\\', c]
  else if c == '\n' then ['\\', 'n']
  else if c == '\r' then ['\\', 'r']
  else if c == '\t' then ['\\', 't']
  else if isPrintable c then [c]
  else codePointEscape c

/-- The quote a text is written with. -/
def quoteFor (s : List Char) : Char :=
  if s.contains '\'' && !s.contains '"' then '"' else '\''

/-- A text between quotes. -/
def quoted (s : String) : String :=
  let quote := quoteFor s.toList
  String.ofList (quote :: s.toList.flatMap (quotedChar quote) ++ [quote])

end LiveTemplate.Text
