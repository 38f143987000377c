import LiveTemplate.Xml.Lexical
import LiveTemplate.Tree.Builder

/-!
# Trees of SVG

SVG is read by the rules of XML inside an element that establishes its namespace.  Reading is
lenient: an end tag ends the innermost element whatever its name, elements that are open at the
end of the text end there, a reference to nothing is dropped, and reading stops at a `<` that
begins nothing.
-/

namespace LiveTemplate.Xml

set_option autoImplicit false

open Text

/-- The namespace of SVG. -/
def svgNamespace : String := "http://www.w3.org/2000/svg"

/-- The namespaces that one element declares, each with the prefix it was declared with last;
the default namespace has no prefix. -/
abbrev Declared := List (String × Option String)

/-- Line ends as single line feeds. -/
def normalizeLines : List Char → List Char
  | '\r' :: '\n' :: r => '\n' :: normalizeLines r
  | '\r' :: r => '\n' :: normalizeLines r
  | c :: r => c :: normalizeLines r
  | [] => []

/-- An attribute value as it is meant: white space becomes spaces and references are decoded. -/
def lenientValue : List Char → Nat → List Char
  | [], _ => []
  | s, 0 => s
  | '&' :: r, count + 1 =>
    match readReference? r with
    | some (c?, behind) => c?.toList ++ lenientValue behind count
    | none => lenientValue r count
  | c :: r, count + 1 => (if isSpace c then ' ' else c) :: lenientValue r count

/-- Reads the attributes of a tag, at most `count` of them, up to its end or to something that is
no attribute: the attributes, whether the tag closes itself, and the text behind it. -/
def readLenientAttributes (s : List Char) :
    Nat → List (QName × String) × Bool × List Char
  | 0 => ([], false, s)
  | count + 1 =>
    match s.dropWhile isSpace with
    | '>' :: r => ([], false, r)
    | '/' :: '>' :: r => ([], true, r)
    | inner =>
      if inner.length == s.length then ([], false, s)
      else
        match readQName? inner with
        | none => ([], false, inner)
        | some (name, r) =>
          match r.dropWhile isSpace with
          | '=' :: r' =>
            match r'.dropWhile isSpace with
            | quote :: r'' =>
              if quote != '"' && quote != '\'' then ([], false, quote :: r'')
              else
                let stop := r''.dropWhile fun c => c != quote && c != '<'
                match stop with
                | c :: behind =>
                  if c == quote then
                    let raw := r''.takeWhile (· != quote)
                    let value := String.ofList (lenientValue raw raw.length)
                    let (others, closed, rest) := readLenientAttributes behind count
                    ((name, value) :: others, closed, rest)
                  else ([], false, stop)
                | [] => ([], false, [])
            | [] => ([], false, [])
          | '>' :: r' => ([], false, r')
          | '/' :: '>' :: r' => ([], true, r')
          | behind =>
            ([], false, behind)

/-- The namespace an attribute declares, with its prefix. -/
def declaration? (a : QName × String) : Option (String × Option String) :=
  match a.1.space with
  | none => if a.1.name == "xmlns" then some (a.2, none) else none
  | some space => if space == "xmlns" then some (a.2, some a.1.name) else none

/-- The namespace of a prefix, looked up from the innermost element outwards. -/
def namespaceOf? (scopes : List Declared) (space : Option String) : Option String :=
  if space == some "xml" then some xmlNamespace
  else scopes.findSome? fun declared =>
    (declared.reverse.find? (·.2 == space)).map (·.1)

/-- The prefix that stands for a namespace, looked up from the innermost element outwards. -/
def prefixOf (scopes : List Declared) (uri : String) : Option String :=
  ((scopes.findSome? fun declared =>
    (declared.reverse.find? (·.1 == uri)).map (·.2)).getD
      (if uri == xmlNamespace then some "xml" else none))

/-- The name of an attribute: its prefix stays only if it is declared. -/
def attributeName (scopes : List Declared) (q : QName) : String :=
  match q.space with
  | none => q.name
  | some _ =>
    match (namespaceOf? scopes q.space).bind (prefixOf scopes) with
    | some space => space ++ ":" ++ q.name
    | none => q.name

/-- The attribute that a declaration leaves on its element. -/
def declarationName (space : Option String) : String :=
  match space with
  | none => "xmlns"
  | some space => "xmlns:" ++ space

/-- The element that a start tag begins, inside the given scopes, its own included.  Its
declarations come last among its attributes. -/
def elementOf (scopes : List Declared) (name : QName) (attributes : List (QName × String)) :
    Element where
  name := name.name
  space := (namespaceOf? scopes name.space).bind (prefixOf scopes)
  attributes :=
    Attributes.ofList
      ((attributes.filter fun a => (declaration? a).isNone).map
          (fun a => (attributeName scopes a.1, a.2))
        ++ (attributes.filterMap declaration?).map (fun d => (declarationName d.2, d.1)))
  single := true
  dialect := some .svg

/-- The state of reading: the trees built so far, and what every open element declares. -/
structure Reading where
  builder : TreeBuilder := {}
  scopes : List Declared

/-- Reads content, at most `count` constructs of it. -/
def readContent (state : Reading) (s : List Char) : Nat → Reading
  | 0 => state
  | count + 1 =>
    let b := state.builder
    match s with
    | [] => state
    | '<' :: '/' :: r =>
      match state.scopes with
      | [] | [_] => state
      | _ :: outer =>
        let behind := (r.dropWhile fun c => isNameChar c || c == ':').dropWhile isSpace
        let behind := match behind with
          | '>' :: r' => r'
          | _ => behind
        readContent ⟨b.endInner, outer⟩ behind count
    | '<' :: '!' :: '-' :: '-' :: r =>
      match splitAtWord? ['-', '-', '>'] r with
      | some (content, behind) =>
        readContent { state with builder := b.addLeaf .comment content } behind count
      | none => state
    | '<' :: '?' :: r =>
      match readPlainName? r, splitAtWord? ['?', '>'] r with
      | some (target, r'), some _ =>
        match splitAtWord? ['?', '>'] r' with
        | some (content, behind) =>
          let text := target.toList ++ ' ' :: content.dropWhile isSpace
          let b := b.addLeaf (.instruction · .svg) text
          readContent { state with builder := b } behind count
        | none => state
      | _, _ => state
    | '<' :: '!' :: r =>
      if "[CDATA[".toList.isPrefixOf r then
        match splitAtWord? [']', ']', '>'] (r.drop 7) with
        | some (content, behind) =>
          let b := if content.isEmpty then b else b.read content
          readContent { state with builder := b } behind count
        | none => state
      else readContent state ('!' :: r) count
    | '<' :: r =>
      match readQName? r with
      | none => state
      | some (name, r') =>
        let (attributes, closed, behind) := readLenientAttributes r' (r'.length + 1)
        let scopes := attributes.filterMap declaration? :: state.scopes
        let b := b.start (elementOf scopes name attributes)
        if closed then readContent { state with builder := b.endInner } behind count
        else readContent ⟨b, scopes⟩ behind count
    | '&' :: r =>
      match readReference? r with
      | some (some c, behind) =>
        readContent { state with builder := b.read [c] } behind count
      | some (none, behind) => readContent state behind count
      | none => readContent state r count
    | _ =>
      let plain := s.takeWhile fun c => c != '<' && c != '&'
      let legal := plain.filter isChar
      let b := if legal.isEmpty then b else b.read legal
      readContent { state with builder := b } (s.drop plain.length) count

/-- The trees of an SVG text. -/
def trees (markup : String) : List Tree :=
  let s := normalizeLines markup.toList
  (readContent { scopes := [[(svgNamespace, none)]] } s s.length).builder.finish

end LiveTemplate.Xml
