import LiveTemplate.Text.CharRef
import LiveTemplate.Text.LowerCase

/-!
# Tokens of HTML

Forgiving reading of HTML as a list of tokens.  A reader makes two rounds over its input.  In
the first one it waits for more wherever a construct is cut off by the end of the input; in the
second one it reads on from there and takes what is still incomplete as text.  A malformed
numeric reference ends a round early.
-/

namespace LiveTemplate.Html

set_option autoImplicit false

open Text

/-- A token of HTML. -/
inductive Token
  | text (s : List Char)
  | startTag (name : String) (attributes : List (String × String)) (closed : Bool)
  | endTag (name : String)
  | comment (s : List Char)
  | doctype (s : List Char)
  | cdata (s : List Char)
  | declaration (s : List Char)
  | instruction (s : List Char)
  deriving Repr

/-- Markup that no reading can be given to. -/
inductive Rejection
  /-- No name stands behind `<![`. -/
  | nameExpected (near : List Char)
  /-- The name behind `<![` is not that of a marked section. -/
  | unknownSection (keyword : List Char)
  deriving Repr

/-- Elements whose content is raw text. -/
def rawElements : List String := ["script", "style"]

/-! ## Finding the end of a construct -/

/-- Splits a text behind the first occurrence of a character: what stands before it, and what
stands behind it. -/
def splitAt? (stop : Char) (s : List Char) : Option (List Char × List Char) :=
  match s.dropWhile (· != stop) with
  | [] => none
  | _ :: rest => some (s.takeWhile (· != stop), rest)

/-- Splits a text at the first place where `close` recognises an ending, which gives the text
behind it. -/
def splitWhere? (close : List Char → Option (List Char)) :
    List Char → Option (List Char × List Char)
  | [] => none
  | c :: rest =>
    match close (c :: rest) with
    | some behind => some ([], behind)
    | none => (splitWhere? close rest).map fun (before, behind) => (c :: before, behind)

/-- A letter of the Latin alphabet. -/
def isLetter (c : Char) : Bool := c.isAlpha

/-- Lower case of a name, as a string. -/
def lowerName (s : List Char) : String := String.ofList (lower s)

/-- Drops the given characters in front of a text, whatever the case of its letters. -/
def dropWord? : List Char → List Char → Option (List Char)
  | [], s => some s
  | _ :: _, [] => none
  | w :: word, c :: s => if c.toLower = w then dropWord? word s else none

/-- The ending of a comment: two dashes, blanks and a `>`. -/
def commentClose : List Char → Option (List Char)
  | '-' :: '-' :: r =>
    match r.dropWhile isBlank with
    | '>' :: behind => some behind
    | _ => none
  | _ => none

/-- The ending of a marked section: a bracket, a second one if `double`, and a `>`, with blanks
between them. -/
def sectionClose (double : Bool) : List Char → Option (List Char)
  | ']' :: r =>
    match r.dropWhile isBlank, double with
    | ']' :: r', true =>
      match r'.dropWhile isBlank with
      | '>' :: behind => some behind
      | _ => none
    | '>' :: behind, false => some behind
    | _, _ => none
  | _ => none

/-- The end tag of a raw text element. -/
def rawClose (name : String) : List Char → Option (List Char)
  | '<' :: '/' :: r =>
    match dropWord? name.toList (r.dropWhile isBlank) with
    | some r' =>
      match r'.dropWhile isBlank with
      | '>' :: behind => some behind
      | _ => none
    | none => none
  | _ => none

/-! ## Start tags -/

/-- A character that may stand in the name of a tag, behind its first letter. -/
def isTagNameChar (c : Char) : Bool :=
  !(c == '\t' || c == '\n' || c == '\r' || c == '\x0c' || c == ' ' || c == '/' || c == '>'
    || c == '\x00')

/-- A character that may stand in the name of an attribute, behind its first character. -/
def isAttributeNameChar (c : Char) : Bool := !(isBlank c || c == '/' || c == '=' || c == '>')

/-- A character that may stand in an unquoted value. -/
def isBareValueChar (c : Char) : Bool := !(isBlank c || c == '>')

/-- Skips what may stand between attributes: blanks, and slashes that do not end the tag. -/
def skipSeparators : List Char → List Char
  | [] => []
  | '/' :: '>' :: r => '/' :: '>' :: r
  | c :: r => if isBlank c || c == '/' then skipSeparators r else c :: r

/-- Reads the value behind the name of an attribute, equals sign included: the value, if there is
one, and the text behind it. -/
def readValue (s : List Char) : Option (List Char) × List Char :=
  match s.dropWhile isBlank with
  | '=' :: r =>
    let behindSigns := r.dropWhile (· == '=')
    let signs := r.takeWhile (· == '=')
    let bare := behindSigns.dropWhile isBlank
    let quotedBy? (q : Char) : Option (List Char × List Char) :=
      match bare with
      | c :: r' => if c = q then splitAt? q r' else none
      | [] => none
    match (quotedBy? '\'').or (quotedBy? '"') with
    | some (value, behind) => (some value, behind)
    | none =>
      match bare with
      | '\'' :: _ | '"' :: _ =>
        -- The quote is never closed, so the value ends in front of it.
        if (behindSigns.takeWhile isBlank).isEmpty then
          if signs.isEmpty then (none, s)
          else (some ('=' :: bare.takeWhile isBareValueChar), bare.dropWhile isBareValueChar)
        else (some [], bare)
      | _ => (some (bare.takeWhile isBareValueChar), bare.dropWhile isBareValueChar)
  | _ => (none, s)

/-- Whether an attribute may begin directly behind a character. -/
def separates (c : Char) : Bool := isBlank c || c == '\'' || c == '"' || c == '/'

/-- Reads the attributes of a tag, at most `count` of them; `free` tells whether one may begin
here.  Gives them with the text behind them. -/
def readAttributes (free : Bool) (s : List Char) :
    Nat → List (String × String) × List Char
  | 0 => ([], s)
  | count + 1 =>
    match s with
    | c :: r =>
      if free && !(isBlank c || c == '/' || c == '>') then
        let name := c :: r.takeWhile isAttributeNameChar
        let (value, behind) := readValue (r.dropWhile isAttributeNameChar)
        let next := skipSeparators behind
        let consumed := s.take (s.length - next.length)
        let (others, rest) :=
          readAttributes ((consumed.getLast?.map separates).getD false) next count
        let decoded := String.ofList ((value.map decodeValue).getD [])
        ((lowerName name, decoded) :: others, rest)
      else ([], s)
    | [] => ([], s)

/-- What a text that begins with a start tag holds. -/
inductive TagReading
  /-- A whole tag, and the text behind it. -/
  | whole (token : Token) (behind : List Char)
  /-- The input ends before the tag does. -/
  | cutOff
  /-- Something that is no tag, up to the given text. -/
  | malformed (behind : List Char)

/-- Reads the start tag of which `s` follows the `<`. -/
def readStartTag (s : List Char) : TagReading :=
  let name := s.takeWhile isTagNameChar
  let behindName := s.dropWhile isTagNameChar
  let first := skipSeparators behindName
  let free := first.length < behindName.length || (name.getLast?.map separates).getD false
  let (attributes, behind) := readAttributes free first first.length
  match behind with
  | '>' :: r => .whole (.startTag (lowerName name) attributes false) r
  | '/' :: '>' :: r => .whole (.startTag (lowerName name) attributes true) r
  | [] => .cutOff
  | c :: _ => if isLetter c || c == '=' || c == '/' then .cutOff else .malformed behind

/-! ## One step of reading -/

/-- The outcome of a step: the tokens it yields, the text it leaves, the raw text element it is
in, and whether the round ends. -/
structure Step where
  tokens : List Token
  rest : List Char
  raw : Option String := none
  halt : Bool := false

/-- A construct that the end of the input cuts off: the first round waits for more, the second
one takes it as text up to the next delimiter. -/
def cutOffStep (final : Bool) (s : List Char) : Step :=
  if !final then { tokens := [], rest := s, halt := true }
  else
    match splitAt? '>' (s.drop 1) with
    | some (before, behind) => { tokens := [.text (s.take 1 ++ before ++ ['>'])], rest := behind }
    | none =>
      let behind := (s.drop 1).dropWhile (· != '<')
      let taken := if behind.isEmpty then 1 else s.length - behind.length
      { tokens := [.text (s.take taken)], rest := s.drop taken }

/-- A character that may stand in an end tag's name, behind its first letter. -/
def isEndTagNameChar (c : Char) : Bool :=
  c.isAlphanum || c == '-' || c == '.' || c == ':' || c == '_'

/-- Reads what `s`, a text behind `</`, begins with. -/
def endTagStep (final : Bool) (s : List Char) : Step :=
  match splitAt? '>' s with
  | none => cutOffStep final ('<' :: '/' :: s)
  | some (before, behind) =>
    let inner := s.dropWhile isBlank
    let plain := inner.takeWhile isEndTagNameChar
    let plainRest := (inner.dropWhile isEndTagNameChar).dropWhile isBlank
    match (plain.head?.map isLetter).getD false, plainRest with
    | true, '>' :: r => { tokens := [.endTag (lowerName plain)], rest := r }
    | _, _ =>
      match s with
      | c :: _ =>
        if isLetter c then
          { tokens := [.endTag (lowerName (s.takeWhile isTagNameChar))], rest := behind }
        else if c == '>' then { tokens := [], rest := behind }
        else { tokens := [.comment before], rest := behind }
      | [] => { tokens := [], rest := behind }

/-- A character that may stand in the keyword of a marked section, behind its first letter. -/
def isKeywordChar (c : Char) : Bool := c.isAlphanum || c == '-' || c == '_' || c == '.'

/-- The keywords of sections that end with two brackets, and of those that end with one. -/
def sectionKeywords (double : Bool) : List String :=
  if double then ["temp", "cdata", "ignore", "include", "rcdata"] else ["if", "else", "endif"]

/-- The token of a marked section with the given content. -/
def sectionToken (s : List Char) : Token :=
  match dropWord? "cdata[".toList s with
  | some content => .cdata content
  | none => .declaration s

/-- Reads what `s`, a text behind `<![`, begins with. -/
def sectionStep (final : Bool) (s : List Char) : Except Rejection Step :=
  let whole := '<' :: '!' :: '[' :: s
  match s with
  | [] => .ok (cutOffStep final whole)
  | c :: _ =>
    if !isLetter c then .error (.nameExpected (whole.take 20))
    else
      let keyword := s.takeWhile isKeywordChar
      let behindName := (s.dropWhile isKeywordChar).dropWhile isBlank
      if behindName.isEmpty then .ok (cutOffStep final whole)
      else
        let read (double : Bool) : Except Rejection Step :=
          match splitWhere? (sectionClose double) s with
          | some (content, behind) => .ok { tokens := [sectionToken content], rest := behind }
          | none => .ok (cutOffStep final whole)
        if (sectionKeywords true).contains (lowerName keyword) then read true
        else if (sectionKeywords false).contains (lowerName keyword) then read false
        else .error (.unknownSection (s.take (s.length - behindName.length)))

/-- Reads what `s`, a text behind `<!`, begins with. -/
def declarationStep (final : Bool) (s : List Char) : Except Rejection Step :=
  let cutOff := cutOffStep final ('<' :: '!' :: s)
  match s with
  | '-' :: '-' :: r =>
    match splitWhere? commentClose r with
    | some (content, behind) => .ok { tokens := [.comment content], rest := behind }
    | none => .ok cutOff
  | '[' :: r => sectionStep final r
  | _ =>
    match dropWord? "doctype".toList s with
    | some r =>
      match splitAt? '>' r with
      | some (content, behind) => .ok { tokens := [.doctype (content.drop 1)], rest := behind }
      | none => .ok cutOff
    | none =>
      match splitAt? '>' s with
      | some (content, behind) => .ok { tokens := [.comment content], rest := behind }
      | none => .ok cutOff

/-- The digits of a numeric reference in text, which end only before a character that is no
hexadecimal digit. -/
def readTextNumber? (s : List Char) : Option (Nat × List Char) :=
  match readNumber? s with
  | some (n, c :: r) => if isHexDigit c then none else some (n, c :: r)
  | _ => none

/-- A character that may stand in a named reference in text, behind its first letter. -/
def isReferenceNameChar (c : Char) : Bool := c.isAlphanum || c == '-' || c == '.'

/-- The name of a reference in text: the longest one that a character other than a letter or a
digit follows. -/
def readTextName? (s : List Char) : Option (List Char × List Char) :=
  let longest := s.takeWhile isReferenceNameChar
  if !(longest.head?.map isLetter).getD false then none
  else
    match s.drop longest.length with
    | c :: r => some (longest, c :: r)
    | [] =>
      -- Nothing follows, so the name gives up its end back to a dash or a point.
      let tail := longest.reverse.takeWhile Char.isAlphanum
      if tail.length == longest.length then none
      else
        let kept := longest.length - tail.length - 1
        some (s.take kept, s.drop kept)

/-- Drops the semicolon that ends a reference. -/
def pastSemicolon : List Char → List Char
  | ';' :: r => r
  | r => r

/-- Reads what `s`, a text behind an ampersand, begins with. -/
def referenceStep (final : Bool) (s : List Char) : Step :=
  let whole := '&' :: s
  match s with
  | '#' :: r =>
    match readTextNumber? r with
    | some (n, behind) =>
      { tokens := [.text [textCharOfNumber n]], rest := pastSemicolon behind }
    | none =>
      if r.contains ';' then { tokens := [.text ['&', '#']], rest := r, halt := true }
      else { tokens := [], rest := whole, halt := true }
  | c :: r =>
    match readTextName? s with
    | some (name, behind) =>
      let decoded := (anyName? name).elim ('&' :: name) ([·])
      { tokens := [.text decoded], rest := pastSemicolon behind }
    | none =>
      if isLetter c then
        -- At the very end of the input an ampersand before a single letter is lost.
        { tokens := [], rest := if final && r.isEmpty then s else whole, halt := true }
      else { tokens := [.text ['&']], rest := s }
  | [] => { tokens := [], rest := whole, halt := true }

/-- Reads what `s`, a text behind a `<`, begins with. -/
def tagStep (final : Bool) (s : List Char) : Except Rejection Step :=
  match s with
  | [] => .ok { tokens := [], rest := ['<'], halt := true }
  | '/' :: r => .ok (endTagStep final r)
  | '!' :: r => declarationStep final r
  | '?' :: r =>
    match splitAt? '>' r with
    | some (content, behind) => .ok { tokens := [.instruction content], rest := behind }
    | none => .ok (cutOffStep final ('<' :: s))
  | c :: _ =>
    if isLetter c then
      match readStartTag s with
      | .whole (.startTag name attributes closed) behind =>
        .ok {
          tokens := [.startTag name attributes closed], rest := behind,
          raw := if !closed && rawElements.contains name then some name else none }
      | .whole token behind => .ok { tokens := [token], rest := behind }
      | .cutOff => .ok (cutOffStep final ('<' :: s))
      | .malformed behind =>
        .ok { tokens := [.text (('<' :: s).take (s.length + 1 - behind.length))], rest := behind }
    else .ok { tokens := [.text ['<']], rest := s }

/-- Reads what a text begins with. -/
def step (final : Bool) (raw : Option String) (s : List Char) : Except Rejection Step :=
  match raw with
  | some name =>
    match splitWhere? (rawClose name) s with
    | some (content, behind) =>
      let text := if content.isEmpty then [] else [Token.text content]
      .ok { tokens := text ++ [.endTag name], rest := behind }
    | none => .ok { tokens := [], rest := s, raw := some name, halt := true }
  | none =>
    match s with
    | '<' :: r => tagStep final r
    | '&' :: r => .ok (referenceStep final r)
    | _ =>
      let plain := s.takeWhile fun c => c != '<' && c != '&'
      .ok { tokens := [.text plain], rest := s.drop plain.length }

/-! ## Rounds -/

/-- The outcome of a round: its tokens, the text it leaves, and the raw text element it ends in. -/
structure Round where
  tokens : List Token
  rest : List Char
  raw : Option String

/-- Reads at most `count` constructs. -/
def round (final : Bool) (raw : Option String) (s : List Char) : Nat → Except Rejection Round
  | 0 => .ok ⟨[], s, raw⟩
  | count + 1 =>
    if s.isEmpty then .ok ⟨[], s, raw⟩
    else do
      let now ← step final raw s
      if now.halt then return ⟨now.tokens, now.rest, now.raw⟩
      let later ← round final now.raw now.rest count
      return { later with tokens := now.tokens ++ later.tokens }

/-- The tokens of a text.  What the second round leaves is text, except inside a raw text element,
whose content is lost when it has no end. -/
def tokens (s : List Char) : Except Rejection (List Token) := do
  let first ← round false none s s.length
  let second ← round true first.raw first.rest first.rest.length
  let tail := if second.raw.isNone && !second.rest.isEmpty then [Token.text second.rest] else []
  return first.tokens ++ second.tokens ++ tail

end LiveTemplate.Html
