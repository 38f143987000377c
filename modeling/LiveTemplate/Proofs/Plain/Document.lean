import LiveTemplate.Html.Token
import LiveTemplate.Proofs.Scan.Cursors

/-!
# Plainly written documents

A template is thought of here as a text in which some characters are missing: where one is missing
there stands a placeholder, and the fragments are what is left between them.  A document is plainly
written if it is put together from pieces about which a scanner and a reader of HTML cannot
disagree: running text, tags in which it is clear where names and values end, comments without
double dashes, and the content of raw text elements without a `<`.  The rules are part of the
pieces, so that every list of pieces is a document.

`Piece.holed` is a piece as its author writes it, `Piece.marked` the piece with its markers.
`Piece.placeholders` lists its placeholders in order, and `Piece.elements` the elements that it
begins, each with the placeholders that it has to carry.
-/

namespace LiveTemplate.Plain

set_option autoImplicit false

open Text

/-! ## Texts with placeholders -/

/-- The fragments between the placeholders of a text. -/
def fragmentsOf : List (Option Char) → List (List Char)
  | [] => [[]]
  | none :: rest => [] :: fragmentsOf rest
  | some c :: rest =>
    match fragmentsOf rest with
    | [] => [[c]]
    | first :: others => (c :: first) :: others

theorem exists_fragmentsOf (xs : List (Option Char)) :
    ∃ first others, fragmentsOf xs = first :: others := by
  cases xs with
  | nil => exact ⟨_, _, rfl⟩
  | cons x rest =>
      cases x with
      | none => exact ⟨_, _, rfl⟩
      | some c =>
          rw [fragmentsOf]
          split
          · exact ⟨_, _, rfl⟩
          · exact ⟨_, _, rfl⟩

/-- A character goes to the fragment that it stands in front of. -/
theorem fragmentsOf_some {xs : List (Option Char)} {first : List Char} {others : List (List Char)}
    (c : Char) (h : fragmentsOf xs = first :: others) :
    fragmentsOf (some c :: xs) = (c :: first) :: others := by
  rw [fragmentsOf, h]

/-- The characters that are not missing. -/
def written (xs : List (Option Char)) : List Char := xs.filterMap id

/-- The number of placeholders in a text. -/
def holes (xs : List (Option Char)) : Nat := xs.count none

/-! ## Names and spacing -/

/-- The name of an element. -/
structure TagName where
  first : Char
  rest : List Char
  letter : Html.isLetter first = true
  plain : ∀ c ∈ rest, Html.isEndTagNameChar c = true

/-- The characters of the name. -/
def TagName.chars (name : TagName) : List Char := name.first :: name.rest

theorem ascii_of_isAlphanum {c : Char} (h : c.isAlphanum = true) : c.toNat < 0x80 := by
  have hranges : c.isAlphanum = ((decide (c.val ≥ 65 ∧ c.val ≤ 90)
      || (decide (c.val ≥ 97) && decide (c.val ≤ 122)))
      || (decide (c.val ≥ 48) && decide (c.val ≤ 57))) := rfl
  have hvalue : c.toNat = c.val.toNat := rfl
  rw [hranges] at h
  simp only [Bool.or_eq_true, Bool.and_eq_true, decide_eq_true_eq, UInt32.le_iff_toNat_le,
    ge_iff_le, ← hvalue] at h
  have hnumbers : UInt32.toNat 90 = 90 ∧ UInt32.toNat 122 = 122 ∧ UInt32.toNat 57 = 57 := by decide
  omega

theorem ascii_nameChar : ∀ n < 0x80, Html.isEndTagNameChar (Char.ofNat n) = true →
    Html.isTagNameChar (Char.ofNat n) = true ∧ isBlank (Char.ofNat n) = false ∧
      Char.ofNat n ∉ ['!', '?', '<', '=', '>', '/'] := by
  decide +kernel

theorem ascii_of_isEndTagNameChar {c : Char} (h : Html.isEndTagNameChar c = true) :
    c.toNat < 0x80 := by
  simp only [Html.isEndTagNameChar, Bool.or_eq_true, beq_iff_eq] at h
  rcases h with (((halphanum | rfl) | rfl) | rfl) | rfl
  · exact ascii_of_isAlphanum halphanum
  · decide
  · decide
  · decide
  · decide

/-- A character of the name of an element is one for scanners and readers alike, and no mark. -/
theorem nameChar {c : Char} (h : Html.isEndTagNameChar c = true) :
    Html.isTagNameChar c = true ∧ isBlank c = false ∧ c ∉ ['!', '?', '<', '=', '>', '/'] := by
  have htable := ascii_nameChar c.toNat (ascii_of_isEndTagNameChar h)
  rw [Char.ofNat_toNat] at htable
  exact htable h

theorem TagName.isEndTagNameChar (name : TagName) {c : Char} (h : c ∈ name.chars) :
    Html.isEndTagNameChar c = true := by
  rcases List.mem_cons.mp h with rfl | hrest
  · have hletter : name.first.isAlpha = true := name.letter
    show (name.first.isAlpha || name.first.isDigit || _ || _ || _ || _) = true
    rw [hletter]
    rfl
  · exact name.plain c hrest

theorem TagName.not_mem (name : TagName) {c : Char} (h : c ∈ ['!', '?', '<', '=', '>', '/']) :
    c ∉ name.chars :=
  fun hmem => (nameChar (name.isEndTagNameChar hmem)).2.2 h

/-- The name of an attribute that is no marker. -/
structure AttributeName where
  chars : List Char
  nonempty : chars ≠ []
  plain : NameText chars
  unquoted : '"' ∉ chars
  /-- The name holds no character reference. -/
  literal : '&' ∉ chars
  unmarked : Html.lowerName chars ∉ [({} : Markers).attributes, ({} : Markers).nodes]

/-- Spacing inside a tag. -/
structure Spacing where
  chars : List Char
  spacing : ∀ c ∈ chars, isSpacing c = true

/-- No spacing. -/
def Spacing.empty : Spacing := ⟨[], nofun⟩

@[simp]
theorem Spacing.chars_empty : Spacing.empty.chars = [] := rfl

/-- Spacing that sets words apart. -/
structure Gap extends Spacing where
  nonempty : chars ≠ []

/-- A single blank. -/
def Gap.blank : Gap where
  chars := [' ']
  spacing := List.forall_mem_singleton.mpr (by decide)
  nonempty := List.cons_ne_nil ' ' []

/-- An equals sign with the spacing around it. -/
structure Sign where
  before : Spacing
  after : Spacing

/-- The equals sign as it is written. -/
def Sign.chars (sign : Sign) : List Char := sign.before.chars ++ '=' :: sign.after.chars

/-- An equals sign without spacing. -/
def Sign.tight : Sign := ⟨.empty, .empty⟩

@[simp]
theorem Sign.chars_tight : Sign.tight.chars = ['='] := rfl

/-- A value without quotes.  It ends with no slash, which might belong to the end of a tag. -/
structure BareValue where
  chars : List Char
  nonempty : chars ≠ []
  plain : ∀ c ∈ chars, Html.isBareValueChar c = true
  begins : ∀ c ∈ ['"', '\'', '='], chars.head? ≠ some c
  ends : chars.getLast? ≠ some '/'

/-! ## Tags -/

/-- The two quotes in which a value may stand. -/
inductive Quote
  | single
  | double
  deriving DecidableEq, Repr

/-- The character of a quote. -/
def Quote.char : Quote → Char
  | .single => '\''
  | .double => '"'

/-- What may stand between the gaps of a tag. -/
inductive Word
  /-- An attribute without a value. -/
  | flag (name : AttributeName)
  /-- An attribute with a value, in which placeholders may stand. -/
  | quoted (name : AttributeName) (sign : Sign) (quote : Quote) (value : List (Option Char))
      (closed : some quote.char ∉ value)
  /-- An attribute with a value without quotes, behind which a placeholder stands or not. -/
  | bare (name : AttributeName) (sign : Sign) (value : BareValue) (full : Bool)
  /-- An attribute whose value is a placeholder without quotes. -/
  | filled (name : AttributeName) (sign : Sign)
  /-- A placeholder for the tag as a whole. -/
  | hole

namespace Word

/-- The word as it is written. -/
def holed : Word → List (Option Char)
  | .flag name => name.chars.map some
  | .quoted name sign quote value _ =>
    (name.chars ++ sign.chars ++ [quote.char]).map some ++ value ++ [some quote.char]
  | .bare name sign value full =>
    (name.chars ++ sign.chars ++ value.chars).map some ++ if full then [none] else []
  | .filled name sign => (name.chars ++ sign.chars).map some ++ [none]
  | .hole => [none]

/-- The word with its placeholders taken out of it. -/
def marked : Word → List Char
  | .flag name => name.chars
  | .quoted name sign quote value _ =>
    name.chars ++ sign.chars ++ [quote.char] ++ Plain.written value ++ [quote.char]
  | .bare name sign value _ => name.chars ++ sign.chars ++ value.chars
  | .filled name sign => name.chars ++ sign.chars ++ ['"', '"']
  | .hole => []

/-- The names that the placeholders of the word put on the list of its tag. -/
def names : Word → List (List Char)
  | .flag _ => []
  | .quoted name _ _ value _ => List.replicate (holes value) (lower name.chars)
  | .bare name _ _ full => if full then [lower name.chars] else []
  | .filled name _ => [lower name.chars]
  | .hole => [[]]

/-- A slash directly behind the word would be part of it. -/
def runsOn : Word → Bool
  | .bare _ _ _ full => !full
  | _ => false

end Word

/-- The start tag of an element. -/
structure Tag where
  name : TagName
  words : List (Gap × Word)
  tail : Spacing
  /-- The tag closes itself. -/
  closed : Bool
  /-- The slash of its end is no part of the last word. -/
  apart : closed = true → tail.chars = [] → words.getLast?.any (·.2.runsOn) = false

/-- The end of a start tag. -/
def tagEnd (closed : Bool) : List Char := if closed then ['/', '>'] else ['>']

namespace Tag

/-- The names that the placeholders of the tag put on its list. -/
def names (t : Tag) : List (List Char) := t.words.flatMap (·.2.names)

/-- The tag as it is written. -/
def holed (t : Tag) : List (Option Char) :=
  some '<' :: t.name.chars.map some
    ++ t.words.flatMap (fun w => w.1.chars.map some ++ w.2.holed)
    ++ t.tail.chars.map some ++ (tagEnd t.closed).map some

/-- The note of a tag whose placeholders have the given names, if it has any. -/
def note (names : List (List Char)) : List Char :=
  if names = [] then [] else ({} : Markers).note names

/-- The tag with its marker. -/
def marked (t : Tag) : List Char :=
  '<' :: t.name.chars ++ t.words.flatMap (fun w => w.1.chars ++ w.2.marked) ++ t.tail.chars
    ++ note t.names ++ tagEnd t.closed

/-- The content of the element is raw text. -/
def isRaw (t : Tag) : Bool :=
  !t.closed && Html.rawElements.contains (Html.lowerName t.name.chars)

/-- The element that the tag begins, with the placeholders that stand in the tag. -/
def element (t : Tag) : String × List (Option (List Char)) :=
  (Html.lowerName t.name.chars, t.names.map some)

end Tag

/-! ## Documents -/

/-- The text of a comment, behind a dash or not: it holds no two dashes in a row and ends with
none. -/
def isCommentText (dashed : Bool) : List Char → Bool
  | [] => !dashed
  | c :: rest => if c = '-' then !dashed && isCommentText true rest else isCommentText false rest

/-- A piece of a document. -/
inductive Piece
  /-- Running text. -/
  | text (s : List Char) (plain : ∀ c ∈ s, c ≠ '<' ∧ c ≠ '&')
  /-- A named character reference. -/
  | reference (name : TagName) (plain : ∀ c ∈ name.rest, c.isAlphanum = true)
  /-- An ampersand that begins no reference, with the character behind it. -/
  | ampersand (next : Char) (letter : Html.isLetter next = false)
      (plain : next ∉ ['#', '<', '&'])
  /-- A placeholder in text. -/
  | hole
  | startTag (t : Tag) (parsed : t.isRaw = false)
  | endTag (name : TagName)
  | comment (s : List Char) (plain : isCommentText false s = true)
  | doctype (s : List Char) (plain : ∀ c ∈ s, c ≠ '>' ∧ c ≠ '=')
  /-- A raw text element, in which placeholders may stand. -/
  | raw (t : Tag) (raw : t.isRaw = true) (content : List (Option Char)) (plain : some '<' ∉ content)

/-- The end tag of an element. -/
def endTagOf (name : List Char) : List Char := ['<', '/'] ++ name ++ ['>']

namespace Piece

/-- The piece as it is written. -/
def holed : Piece → List (Option Char)
  | .text s _ => s.map some
  | .reference name _ => ('&' :: name.chars ++ [';']).map some
  | .ampersand next _ _ => ['&', next].map some
  | .hole => [none]
  | .startTag t _ => t.holed
  | .endTag name => (endTagOf name.chars).map some
  | .comment s _ => ("<!--".toList ++ s ++ "-->".toList).map some
  | .doctype s _ => ("<!doctype".toList ++ s ++ ['>']).map some
  | .raw t _ content _ => t.holed ++ content ++ (endTagOf t.name.chars).map some

/-- Raw text with the marker elements of its placeholders. -/
def markedText (content : List (Option Char)) : List Char :=
  content.flatMap fun x => x.elim (({} : Markers).element .html) ([·])

/-- The piece with its markers. -/
def marked : Piece → List Char
  | .text s _ => s
  | .reference name _ => '&' :: name.chars ++ [';']
  | .ampersand next _ _ => ['&', next]
  | .hole => ({} : Markers).element .html
  | .startTag t _ => t.marked
  | .endTag name => endTagOf name.chars
  | .comment s _ => "<!--".toList ++ s ++ "-->".toList
  | .doctype s _ => "<!doctype".toList ++ s ++ ['>']
  | .raw t _ content _ => t.marked ++ markedText content ++ endTagOf t.name.chars

/-- The placeholders of the piece: for each of them the name that it puts on the list of its tag,
and none for one in text. -/
def placeholders : Piece → List (Option (List Char))
  | .hole => [none]
  | .startTag t _ => t.names.map some
  | .raw t _ content _ => t.names.map some ++ List.replicate (holes content) none
  | _ => []

/-- The elements of the piece, each with the placeholders that it carries. -/
def elements : Piece → List (String × List (Option (List Char)))
  | .hole => [("span", [none])]
  | .startTag t _ | .raw t .. => [t.element]
  | _ => []

/-- The number of placeholders that stand in raw text, where no element can. -/
def lost : Piece → Nat
  | .raw _ _ content _ => holes content
  | _ => 0

end Piece

/-- A plainly written document. -/
abbrev Document := List Piece

namespace Document

/-- The document as it is written. -/
def holed (doc : Document) : List (Option Char) := doc.flatMap Piece.holed

/-- The fragments of the document. -/
def fragments (doc : Document) : List String := (fragmentsOf doc.holed).map String.ofList

/-- The document with its markers. -/
def marked (doc : Document) : List Char := doc.flatMap Piece.marked

/-- The elements of the document, each with the placeholders that it carries. -/
def elements (doc : Document) : List (String × List (Option (List Char))) :=
  doc.flatMap Piece.elements

/-- The number of placeholders in raw text. -/
def lost (doc : Document) : Nat := (doc.map Piece.lost).foldr (· + ·) 0

end Document

end LiveTemplate.Plain
