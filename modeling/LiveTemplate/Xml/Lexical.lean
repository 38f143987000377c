import LiveTemplate.Text.CharRef

/-!
# The lexical level of XML

Which characters a document may hold, how names are spelled, and what references stand for.
-/

namespace LiveTemplate.Xml

set_option autoImplicit false

open Text

/-- A character that a document may hold. -/
def isChar (c : Char) : Bool :=
  let n := c.toNat
  n == 0x9 || n == 0xA || n == 0xD || (0x20 ≤ n && n ≤ 0xD7FF) || (0xE000 ≤ n && n ≤ 0xFFFD)
    || 0x10000 ≤ n

/-- White space of XML. -/
def isSpace (c : Char) : Bool := c == ' ' || c == '\t' || c == '\n' || c == '\r'

/-- A character that may begin a name; the colon, which separates the parts of a name, is left
out. -/
def isNameStart (c : Char) : Bool :=
  let n := c.toNat
  c.isAlpha || c == '_' || (0xC0 ≤ n && n ≤ 0xD6) || (0xD8 ≤ n && n ≤ 0xF6)
    || (0xF8 ≤ n && n ≤ 0x2FF) || (0x370 ≤ n && n ≤ 0x37D) || (0x37F ≤ n && n ≤ 0x1FFF)
    || (0x200C ≤ n && n ≤ 0x200D) || (0x2070 ≤ n && n ≤ 0x218F) || (0x2C00 ≤ n && n ≤ 0x2FEF)
    || (0x3001 ≤ n && n ≤ 0xD7FF) || (0xF900 ≤ n && n ≤ 0xFDCF) || (0xFDF0 ≤ n && n ≤ 0xFFFD)
    || (0x10000 ≤ n && n ≤ 0xEFFFF)

/-- A character that may stand in a name behind its first one. -/
def isNameChar (c : Char) : Bool :=
  let n := c.toNat
  isNameStart c || c.isDigit || c == '-' || c == '.' || n == 0xB7 || (0x300 ≤ n && n ≤ 0x36F)
    || (0x203F ≤ n && n ≤ 0x2040)

/-- Reads a name without a prefix: the name and the text behind it. -/
def readPlainName? (s : List Char) : Option (String × List Char) :=
  match s with
  | c :: r =>
    if isNameStart c then
      some (String.ofList (c :: r.takeWhile isNameChar), r.dropWhile isNameChar)
    else none
  | [] => none

/-- A name with an optional namespace prefix. -/
structure QName where
  space : Option String
  name : String
  deriving DecidableEq, Repr

/-- Reads a name with an optional prefix: the name and the text behind it. -/
def readQName? (s : List Char) : Option (QName × List Char) := do
  let (first, r) ← readPlainName? s
  match r with
  | ':' :: r' =>
    match readPlainName? r' with
    | some (second, r'') => some (⟨some first, second⟩, r'')
    | none => some (⟨none, first⟩, r)
  | _ => some (⟨none, first⟩, r)

/-- The characters that a document can write by name. -/
def predefined : List (String × Char) :=
  [("lt", '<'), ("gt", '>'), ("amp", '&'), ("quot", '"'), ("apos", '\'')]

/-- Reads the reference of which `s` follows the ampersand: the character it stands for, if it is
a legal one, and the text behind the semicolon. -/
def readReference? (s : List Char) : Option (Option Char × List Char) :=
  match s with
  | '#' :: r =>
    -- The sign of a hexadecimal number is a small letter.
    if r.head? == some 'X' then none
    else
      match readNumber? r with
      | some (n, ';' :: behind) =>
        let c := Char.ofNat n
        some (if isCharNumber n && isChar c && n != 0 then some c else none, behind)
      | _ => none
  | _ =>
    match readPlainName? s with
    | some (name, ';' :: behind) => some (predefined.lookup name, behind)
    | _ => none

/-- Splits a text at the first occurrence of a word: what stands before it, and what stands
behind it. -/
def splitAtWord? (word : List Char) : List Char → Option (List Char × List Char)
  | [] => none
  | c :: rest =>
    if word.isPrefixOf (c :: rest) then some ([], (c :: rest).drop word.length)
    else (splitAtWord? word rest).map fun (before, behind) => (c :: before, behind)

/-- The namespace of the prefix `xml`, which needs no declaration. -/
def xmlNamespace : String := "http://www.w3.org/XML/1998/namespace"

/-- The namespace of declarations themselves. -/
def xmlnsNamespace : String := "http://www.w3.org/2000/xmlns/"

end LiveTemplate.Xml
