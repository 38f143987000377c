import LiveTemplate.Xml.Lexical

/-!
# Well-formed documents

A strict check of a text as one XML document: a single root element with white space, comments
and processing instructions around it, tags that nest and close, attributes that differ, legal
characters and references everywhere, and namespace prefixes that are declared.
-/

namespace LiveTemplate.Xml

set_option autoImplicit false

open Text

/-- Reads the text of a comment, which must not hold two dashes in a row; `s` follows `<!--`. -/
def passComment? (s : List Char) : Option (List Char) := do
  let (content, behind) ← splitAtWord? ['-', '-'] s
  match behind with
  | '>' :: rest => if content.all isChar then some rest else none
  | _ => none

/-- Reads a processing instruction, of which `s` follows `<?`.  Its name must not be `xml`. -/
def passInstruction? (s : List Char) : Option (List Char) := do
  let (target, r) ← readPlainName? s
  if target.toLower == "xml" then none
  let (content, behind) ← splitAtWord? ['?', '>'] r
  let spaced := (content.head?.map isSpace).getD true
  if spaced && content.all isChar then some behind else none

/-- Reads a section of plain characters, of which `s` follows `<![CDATA[`. -/
def passSection? (s : List Char) : Option (List Char) := do
  let (content, behind) ← splitAtWord? [']', ']', '>'] s
  if content.all isChar then some behind else none

/-- The text of an attribute value, references decoded; none if a character or a reference in it
is illegal. -/
def valueText? : List Char → Nat → Option (List Char)
  | [], _ => some []
  | _ :: _, 0 => none
  | '&' :: r, count + 1 => do
    let (c?, behind) ← readReference? r
    let c ← c?
    (c :: ·) <$> valueText? behind count
  | c :: r, count + 1 =>
    if c == '<' || !isChar c then none else (c :: ·) <$> valueText? r count

/-- An attribute as it is written. -/
structure WrittenAttribute where
  name : QName
  value : String

/-- Reads a name that has at most one colon. -/
def readStrictName? (s : List Char) : Option (QName × List Char) := do
  let (name, r) ← readQName? s
  if r.head? == some ':' then none else some (name, r)

/-- Reads the attributes of a tag up to its end, at most `count` of them: the attributes, whether
the tag closes itself, and the text behind it. -/
def readStrictAttributes? (s : List Char) :
    Nat → Option (List WrittenAttribute × Bool × List Char)
  | 0 => none
  | count + 1 =>
    match s.dropWhile isSpace with
    | '>' :: r => some ([], false, r)
    | '/' :: '>' :: r => some ([], true, r)
    | inner => do
      if inner.length == s.length then none
      let (name, r) ← readStrictName? inner
      match r.dropWhile isSpace with
      | '=' :: r' =>
        match r'.dropWhile isSpace with
        | quote :: r'' =>
          if quote != '"' && quote != '\'' then none
          else
            match r''.dropWhile (· != quote) with
            | _ :: behind =>
              let raw := r''.takeWhile (· != quote)
              let value ← valueText? raw raw.length
              let (others, closed, rest) ← readStrictAttributes? behind count
              some (⟨name, String.ofList value⟩ :: others, closed, rest)
            | [] => none
        | [] => none
      | _ => none

/-- Declared namespaces by prefix, innermost first; the empty prefix has the default one. -/
abbrev Bindings := List (String × String)

/-- A character of a namespace name. -/
def isUriChar (c : Char) : Bool :=
  c.isAlphanum || "-._~:/?#[]@!$&'()*+,;=%".toList.contains c

/-- Whether a prefix may be declared for a namespace; the empty prefix stands for the default. -/
def isLegalBinding (space uri : String) : Bool :=
  if space == "xml" then uri == xmlNamespace
  else
    space != "xmlns" && uri != xmlNamespace && uri != xmlnsNamespace
      && (uri != "" || space == "") && uri.toList.all isUriChar

/-- The prefix an attribute declares, with its namespace. -/
def WrittenAttribute.binding? (a : WrittenAttribute) : Option (String × String) :=
  match a.name.space with
  | none => if a.name.name == "xmlns" then some ("", a.value) else none
  | some space => if space == "xmlns" then some (a.name.name, a.value) else none

/-- The namespace of a prefix. -/
def namespaceIn? (bindings : Bindings) (space : String) : Option String :=
  if space == "xml" then some xmlNamespace else bindings.lookup space

/-- Whether no two members of a list are equal. -/
def allDistinct {α : Type} [BEq α] : List α → Bool
  | [] => true
  | x :: rest => !rest.contains x && allDistinct rest

/-- The namespaces in force inside an element, if its attributes are legal: every prefix is
declared, and no attribute occurs twice, neither as written nor by namespace. -/
def enter? (bindings : Bindings) (name : QName) (attributes : List WrittenAttribute) :
    Option Bindings := do
  let declared := attributes.filterMap (·.binding?)
  if !declared.all (fun d => isLegalBinding d.1 d.2) then none
  let inner := declared ++ bindings
  let resolves (q : QName) : Bool := (q.space.map fun p => (namespaceIn? inner p).isSome).getD true
  let proper := attributes.filter fun a => a.binding?.isNone
  let expanded := proper.map fun a => (a.name.space.bind (namespaceIn? inner), a.name.name)
  let written := attributes.map fun a => (a.name.space, a.name.name)
  if resolves name && proper.all (fun a => resolves a.name) && allDistinct written
      && allDistinct expanded then
    some inner
  else none

/-- Reads the content of the open elements, innermost first, up to the end of the outermost one:
the text behind it.  Reads at most `count` constructs. -/
def passContent? (opened : List (QName × Bindings)) (s : List Char) :
    Nat → Option (List Char)
  | 0 => none
  | count + 1 =>
    match opened with
    | [] => some s
    | (name, bindings) :: outer =>
      match s with
      | [] => none
      | '<' :: '/' :: r => do
        let (ended, r') ← readStrictName? r
        match r'.dropWhile isSpace with
        | '>' :: behind => if ended = name then passContent? outer behind count else none
        | _ => none
      | '<' :: '!' :: '-' :: '-' :: r => do passContent? opened (← passComment? r) count
      | '<' :: '?' :: r => do passContent? opened (← passInstruction? r) count
      | '<' :: '!' :: r =>
        if "[CDATA[".toList.isPrefixOf r then do
          passContent? opened (← passSection? (r.drop 7)) count
        else none
      | '<' :: r => do
        let (begun, r') ← readStrictName? r
        let (attributes, closed, behind) ← readStrictAttributes? r' (r'.length + 1)
        let inner ← enter? bindings begun attributes
        passContent? (if closed then opened else (begun, inner) :: opened) behind count
      | '&' :: r => do
        let (c?, behind) ← readReference? r
        if c?.isNone then none
        passContent? opened behind count
      | ']' :: ']' :: '>' :: _ => none
      | c :: r => if isChar c then passContent? opened r count else none

/-- Skips white space, comments and processing instructions outside the root element, at most
`count` of them. -/
def passMisc (s : List Char) : Nat → List Char
  | 0 => s
  | count + 1 =>
    match s with
    | '<' :: '!' :: '-' :: '-' :: r => ((passComment? r).map (passMisc · count)).getD s
    | '<' :: '?' :: r => ((passInstruction? r).map (passMisc · count)).getD s
    | c :: r => if isSpace c then passMisc r count else s
    | [] => []

/-- Whether a text is a well-formed document.  A byte order mark may precede it. -/
def isWellFormed (s : List Char) : Bool :=
  let document := match s with
    | '\ufeff' :: r => r
    | _ => s
  match passMisc document document.length with
  | '<' :: r =>
    match readStrictName? r with
    | none => false
    | some (name, r') =>
      match readStrictAttributes? r' (r'.length + 1) with
      | none => false
      | some (attributes, closed, behind) =>
        match enter? [] name attributes with
        | none => false
        | some inner =>
          match passContent? (if closed then [] else [(name, inner)]) behind
              (behind.length + 1) with
          | none => false
          | some rest => (passMisc rest rest.length).isEmpty
  | _ => false

end LiveTemplate.Xml
