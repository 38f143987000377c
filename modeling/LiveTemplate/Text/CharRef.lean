import LiveTemplate.Text.Blank
import LiveTemplate.Text.NamedTable

/-!
# Character references

Markup names a character by its number (`&#65;`, `&#x41;`) or by a word (`&amp;`).  Running text
and attribute values read these references by different rules.

* In text a word is read up to its first character that cannot belong to it, whether or not a
  semicolon follows; an unknown word stays as it is, without its semicolon.  Numbers below 256
  are read as bytes of Western text.
* In an attribute value the older words may also stand in front of other letters, an unknown
  word stays complete, and numbers that name no character are dropped or replaced.
-/

namespace LiveTemplate.Text

set_option autoImplicit false

/-- The characters that the bytes 0x80 to 0x9F stand for in Western text; five of them have
none and keep their number. -/
def westernControls : List Nat := [
    0x20AC, 0x81, 0x201A, 0x192, 0x201E, 0x2026, 0x2020, 0x2021, 0x2C6, 0x2030, 0x160, 0x2039,
    0x152, 0x8D, 0x17D, 0x8F, 0x90, 0x2018, 0x2019, 0x201C, 0x201D, 0x2022, 0x2013, 0x2014,
    0x2DC, 0x2122, 0x161, 0x203A, 0x153, 0x9D, 0x17E, 0x178]

/-- The character of a byte of Western text. -/
def westernChar (n : Nat) : Char :=
  Char.ofNat (if 0x80 ≤ n then (westernControls[n - 0x80]?).getD n else n)

/-- The sign that stands for a number without a character. -/
def replacementChar : Char := '\ufffd'

/-- Whether a number is a code point of a character. -/
def isCharNumber (n : Nat) : Bool := n < 0xD800 || (0xDFFF < n && n < 0x110000)

/-- The character that a number names in running text. -/
def textCharOfNumber (n : Nat) : Char :=
  if n < 0x100 then westernChar n
  else if isCharNumber n then Char.ofNat n
  else replacementChar

/-- Whether a number is a code point that no document should hold: a control or a
noncharacter. -/
def isUnwanted (n : Nat) : Bool :=
  (0x1 ≤ n && n ≤ 0x8) || n == 0xB || (0xE ≤ n && n ≤ 0x1F) || (0x7F ≤ n && n ≤ 0x9F)
    || (0xFDD0 ≤ n && n ≤ 0xFDEF) || n % 0x10000 == 0xFFFE || n % 0x10000 == 0xFFFF

/-- What a number stands for in an attribute value. -/
def valueTextOfNumber (n : Nat) : List Char :=
  if n == 0 then [replacementChar]
  else if n == 0x0D then ['\r']
  else if 0x80 ≤ n && n ≤ 0x9F then [westernChar n]
  else if !isCharNumber n then [replacementChar]
  else if isUnwanted n then []
  else [Char.ofNat n]

/-- The value of a digit in a base up to sixteen. -/
def digitValue (c : Char) : Nat :=
  if c.isDigit then c.toNat - '0'.toNat else c.toLower.toNat - 'a'.toNat + 10

/-- The number that digits write in a base. -/
def numberOfDigits (base : Nat) (digits : List Char) : Nat :=
  digits.foldl (fun value c => value * base + digitValue c) 0

/-- Whether a character is a hexadecimal digit. -/
def isHexDigit (c : Char) : Bool :=
  c.isDigit || ('a' ≤ c && c ≤ 'f') || ('A' ≤ c && c ≤ 'F')

/-- Reads the digits of a numeric reference, of which `s` follows the number sign: the number,
and the text behind it. -/
def readNumber? (s : List Char) : Option (Nat × List Char) :=
  match s with
  | 'x' :: r | 'X' :: r =>
    let digits := r.takeWhile isHexDigit
    if digits.isEmpty then none else some (numberOfDigits 16 digits, r.dropWhile isHexDigit)
  | _ =>
    let digits := s.takeWhile Char.isDigit
    if digits.isEmpty then none else some (numberOfDigits 10 digits, s.dropWhile Char.isDigit)

/-- The character of a name that needs no semicolon. -/
def bareName? (name : List Char) : Option Char :=
  (bareNames.lookup (String.ofList name)).map Char.ofNat

/-- The character of a name. -/
def anyName? (name : List Char) : Option Char :=
  ((bareNames.lookup (String.ofList name)).or
    (closedNames.lookup (String.ofList name))).map Char.ofNat

/-- The longest beginning of at least two and at most `limit` characters that is a name needing
no semicolon, with the character it names and what follows it. -/
def longestBareName? (word : List Char) : Nat → Option (Char × List Char)
  | 0 | 1 => none
  | limit + 1 =>
    match bareName? (word.take (limit + 1)) with
    | some c => some (c, word.drop (limit + 1))
    | none => longestBareName? word limit

/-- A character that may belong to the word of a reference in an attribute value. -/
def isReferenceWordChar (c : Char) : Bool :=
  !(c == '\t' || c == '\n' || c == '\x0c' || c == ' ' || c == '<' || c == '&' || c == '#'
    || c == ';')

/-- What a word between an ampersand and an optional semicolon stands for in an attribute
value. -/
def valueTextOfWord (word : List Char) (closed : Bool) : List Char :=
  let whole := if closed then anyName? word else bareName? word
  let close := if closed then [';'] else []
  match whole with
  | some c => [c]
  | none =>
    match longestBareName? word (if closed then word.length else word.length - 1) with
    | some (c, rest) => c :: rest ++ close
    | none => '&' :: word ++ close

/-- Reads the reference of which `s` follows the ampersand, in an attribute value: what it stands
for, and the text behind it. -/
def readValueReference? (s : List Char) : Option (List Char × List Char) :=
  let pastSemicolon (r : List Char) : List Char :=
    match r with
    | ';' :: r' => r'
    | _ => r
  match s with
  | '#' :: r => (readNumber? r).map fun (n, r') => (valueTextOfNumber n, pastSemicolon r')
  | _ =>
    let word := (s.takeWhile isReferenceWordChar).take 32
    if word.isEmpty then none
    else
      match s.drop word.length with
      | ';' :: r => some (valueTextOfWord word true, r)
      | r => some (valueTextOfWord word false, r)

/-- Decodes at most `count` references or characters of an attribute value. -/
def decodeValueUpTo : Nat → List Char → List Char
  | 0, s => s
  | _, [] => []
  | count + 1, '&' :: r =>
    match readValueReference? r with
    | some (decoded, r') => decoded ++ decodeValueUpTo count r'
    | none => '&' :: decodeValueUpTo count r
  | count + 1, c :: r => c :: decodeValueUpTo count r

/-- An attribute value with its character references decoded. -/
def decodeValue (s : List Char) : List Char := decodeValueUpTo s.length s

end LiveTemplate.Text
