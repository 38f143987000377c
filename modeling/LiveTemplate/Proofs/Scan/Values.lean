import LiveTemplate.Proofs.Scan.ReadBack
import LiveTemplate.Proofs.Scan.Waiting

/-!
# The attribute values of a tag with a note

`TagReading` reads markup as the scanner does and keeps the attributes with values of the tag that
it is in.  It reads fragments as well as what a scan has made of them, so the values of a tag can be
compared before and after its note has been put in.

A note goes directly in front of the `>` of its tag, or in front of a slash there, whatever the
slash belongs to.  Where no value is awaited and the slash is in none, the note is one more
attribute (`values_note_kept`), and else it runs into the last value of the tag
(`values_note_lost`).
-/

namespace LiveTemplate

set_option autoImplicit false

open Text

variable {m : Markers} {d : Dialect}

/-! ## Reading tags -/

/-- How the reading of attributes stands: its cursor, the value that is being read, and the
attributes with values that the tag has so far. -/
structure TagReading where
  cursor : Cursor := .text
  value : List Char := []
  values : List (List Char × List Char) := []
  deriving DecidableEq, Repr

namespace TagReading

/-- The attribute whose value ends in front of a character.  A value that holds a placeholder is
none of the tag's own. -/
def ended (r : TagReading) (c : Char) : List (List Char × List Char) :=
  match r.cursor with
  | .beforeValue name => if c = '>' then [(name, [])] else []
  | .unquoted name => if isBlank c || c = '>' then [(name, r.value)] else []
  | .quoted quote name false => if c = quote then [(name, r.value)] else []
  | _ => []

/-- The value that is being read behind a character. -/
def valueBehind (r : TagReading) (c : Char) : List Char :=
  match r.cursor, r.cursor.next c with
  | .quoted .., .quoted .. => r.value ++ [c]
  | .unquoted _, .unquoted _ => r.value ++ [c]
  | _, .unquoted _ => [c]
  | _, _ => []

/-- Reads one character.  In text the tag before is forgotten. -/
def read (r : TagReading) (c : Char) : TagReading where
  cursor := r.cursor.next c
  value := r.valueBehind c
  values := if r.cursor = .text then [] else r.values ++ r.ended c

/-- Goes on behind a placeholder.  One that is a whole value leaves an empty one. -/
def past (m : Markers) (d : Dialect) (r : TagReading) : TagReading where
  cursor := (r.cursor.cut m d).cursor
  values := r.values ++ match r.cursor with
    | .beforeValue name => [(name, [])]
    | _ => []

end TagReading

/-- How the reading of attributes stands in front of a position of one of the fragments. -/
def readingFrom (m : Markers) (d : Dialect) (r : TagReading) :
    List (List Char) → Nat → Nat → TagReading
  | [], _, _ => r
  | s :: _, 0, k => (s.take k).foldl TagReading.read r
  | s :: rest, index + 1, k => readingFrom m d ((s.foldl TagReading.read r).past m d) rest index k

namespace TagReading

variable {r r' : TagReading}

theorem cursor_foldl_read (r : TagReading) (s : List Char) :
    (s.foldl read r).cursor = s.foldl Cursor.next r.cursor := by
  induction s generalizing r with
  | nil => rfl
  | cons c rest ih => exact ih (r.read c)

/-- Two readings agree if they are the same, or both are in text, where what was before does not
matter. -/
def Agrees (r r' : TagReading) : Prop := r' = r ∨ (r.cursor = .text ∧ r'.cursor = .text)

theorem Agrees.cursor_eq (h : r.Agrees r') : r'.cursor = r.cursor := by
  rcases h with rfl | ⟨h, h'⟩
  · rfl
  · exact h'.trans h.symm

/-- Readings that agree go on in the same way. -/
theorem Agrees.read (h : r.Agrees r') (c : Char) : (r.read c).Agrees (r'.read c) := by
  rcases h with rfl | ⟨h, h'⟩
  · exact .inl rfl
  · refine .inl ?_
    unfold TagReading.read valueBehind
    rw [if_pos h, if_pos h', h, h']
    by_cases hc : c = '<' <;> simp [Cursor.next, hc]

theorem Agrees.eq_of_ne (h : r.Agrees r') (hne : r.cursor ≠ .text) : r' = r :=
  h.resolve_right fun htext => hne htext.1

/-- Outside text the attributes that the tag has stay. -/
theorem values_read (h : r.cursor ≠ .text) (c : Char) :
    (r.read c).values = r.values ++ r.ended c := if_neg h

/-- In quotes everything up to the closing one is the value. -/
theorem foldl_read_quoted {quote : Char} {name s : List Char}
    (h : r.cursor = .quoted quote name false) (hs : quote ∉ s) :
    s.foldl read r = { r with value := r.value ++ s } := by
  induction s generalizing r with
  | nil => rw [List.append_nil, List.foldl_nil]
  | cons c rest ih =>
      have hc : c ≠ quote := fun heq => hs (heq ▸ List.mem_cons_self ..)
      have hrest : quote ∉ rest := fun hmem => hs (List.mem_cons_of_mem c hmem)
      have hread : r.read c = { r with value := r.value ++ [c] } := by
        obtain ⟨cursor, value, values⟩ := r
        obtain rfl : cursor = .quoted quote name false := h
        simp [read, valueBehind, ended, Cursor.next, hc]
      have hcursor : (r.read c).cursor = .quoted quote name false := by rw [hread, h]
      rw [List.foldl_cons, ih hcursor hrest, hread, List.append_assoc]
      rfl

end TagReading

/-! ## Between values -/

namespace TagReading

variable {r : TagReading}

/-- Between values none ends. -/
theorem ended_eq_nil (h : r.cursor.isBetweenValues = true) (c : Char) : r.ended c = [] := by
  obtain ⟨cursor, value, values⟩ := r
  cases cursor with
  | between | attributeName | afterAttribute => rfl
  | text | opening | bang | bangDash | beforeName | elementName | beforeValue | unquoted | quoted
  | comment => exact nomatch h

/-- Between values the tag gets no more of them. -/
theorem foldl_read_isBetweenValues {s : List Char} (h : r.cursor.isBetweenValues = true)
    (hs : ∀ c ∈ s, c ≠ '=' ∧ c ≠ '>') :
    (s.foldl read r).cursor.isBetweenValues = true ∧ (s.foldl read r).values = r.values := by
  induction s generalizing r with
  | nil => exact ⟨h, rfl⟩
  | cons c rest ih =>
      obtain ⟨hequals, hclose⟩ := hs c (List.mem_cons_self ..)
      have hvalues : (r.read c).values = r.values := by
        rw [values_read (Cursor.inAttributes_of_isBetweenValues h).ne_text, ended_eq_nil h,
          List.append_nil]
      rw [List.foldl_cons, ← hvalues]
      exact ih (Cursor.isBetweenValues_next h hequals hclose)
        fun x hx => hs x (List.mem_cons_of_mem c hx)

/-- Up to its end a tag keeps the attributes that it has. -/
theorem exists_values_close {s : List Char} (h : r.cursor.InAttributes) (hs : '>' ∉ s) :
    ∃ more, ((s.foldl read r).read '>').values = r.values ++ more := by
  induction s generalizing r with
  | nil => exact ⟨r.ended '>', values_read h.ne_text '>'⟩
  | cons c rest ih =>
      have hc : c ≠ '>' := fun heq => hs (heq ▸ List.mem_cons_self ..)
      obtain ⟨more, hmore⟩ := ih (r := r.read c) (h.next fun _ => hc)
        fun hmem => hs (List.mem_cons_of_mem c hmem)
      exact ⟨r.ended c ++ more, by
        rw [List.foldl_cons, hmore, values_read h.ne_text, List.append_assoc]⟩

/-- An unquoted value that has begun ends in front of a blank, or with the tag. -/
theorem exists_values_unquoted {s name value : List Char} {c : Char}
    (h : r.cursor = .unquoted name) (hvalue : r.value = c :: value) (hs : '>' ∉ s) :
    ∃ behind more, ((s.foldl read r).read '>').values
      = r.values ++ (name, c :: behind) :: more := by
  obtain ⟨cursor, _, values⟩ := r
  obtain rfl : cursor = .unquoted name := h
  obtain rfl : _ = c :: value := hvalue
  induction s generalizing value with
  | nil => exact ⟨value, [], rfl⟩
  | cons x rest ih =>
      have hx : x ≠ '>' := fun heq => hs (heq ▸ List.mem_cons_self ..)
      have hrest : '>' ∉ rest := fun hmem => hs (List.mem_cons_of_mem x hmem)
      by_cases hblank : isBlank x = true
      · have hread : (⟨.unquoted name, c :: value, values⟩ : TagReading).read x
            = ⟨.between, [], values ++ [(name, c :: value)]⟩ := by
          simp [read, valueBehind, ended, Cursor.next, hblank]
        obtain ⟨more, hmore⟩ := exists_values_close
          (r := ⟨.between, [], values ++ [(name, c :: value)]⟩) (.inl rfl) hrest
        exact ⟨value, more, by rw [List.foldl_cons, hread, hmore, List.append_assoc]; rfl⟩
      · have hread : (⟨.unquoted name, c :: value, values⟩ : TagReading).read x
            = ⟨.unquoted name, c :: (value ++ [x]), values⟩ := by
          simp [read, valueBehind, ended, Cursor.next, hblank, hx]
        rw [List.foldl_cons, hread]
        exact ih hrest

end TagReading

/-! ## Reading notes -/

/-- The marker names are names of attributes, and the one for notes holds no quotes. -/
structure Markers.Legible (m : Markers) : Prop where
  nonempty : m.attributes.toList ≠ []
  attributes : NameText m.attributes.toList
  no_double : '"' ∉ m.attributes.toList
  no_single : '\'' ∉ m.attributes.toList
  nodes : NameText m.nodes.toList

namespace Markers

theorem legible : ({} : Markers).Legible where
  nonempty := by decide
  attributes := List.all_eq_true.mp
    (by decide : ({} : Markers).attributes.toList.all Html.isAttributeNameChar = true)
  no_double := by decide
  no_single := by decide
  nodes := List.all_eq_true.mp
    (by decide : ({} : Markers).nodes.toList.all Html.isAttributeNameChar = true)

/-- In names and between them stands nothing that ends a tag or an attribute name with a value. -/
theorem ne_of_mem_join {names : List (List Char)} (h : ∀ name ∈ names, NameText name) {c : Char}
    (hc : c ∈ join names) : c ≠ '=' ∧ c ≠ '>' := by
  rcases Plain.mem_join hc with rfl | ⟨name, hname, hmem⟩
  · decide
  · obtain ⟨-, hequals, hclose⟩ := Plain.ne_of_isAttributeNameChar (h name hname c hmem)
    exact ⟨hequals, hclose⟩

/-- What stands in a list of names in quotes: the value up to the first quote, and names. -/
theorem exists_behind_quote {names : List (List Char)} (h : ∀ name ∈ names, NameText name) :
    ∃ behind, join names ++ ['"'] = (join names).takeWhile (· != '"') ++ '"' :: behind ∧
      ∀ c ∈ behind, c ≠ '=' ∧ c ≠ '>' := by
  have hmem : '"' ∈ join names ++ ['"'] := List.mem_append_right _ (List.mem_cons_self ..)
  have hsplit := eq_takeWhile_append_of_mem hmem
  rw [takeWhile_append_stop rfl] at hsplit
  refine ⟨_, hsplit, fun c hc => ?_⟩
  have hall : c ∈ join names ++ ['"'] := by
    rw [hsplit]
    exact List.mem_append_right _ (List.mem_cons_of_mem _ hc)
  rcases List.mem_append.mp hall with hmem | hmem
  · exact ne_of_mem_join h hmem
  · rw [List.mem_singleton.mp hmem]
    decide

end Markers

namespace TagReading

variable {r : TagReading} {names : List (List Char)}

/-- Where no value is awaited, the name of a note is that of the next attribute. -/
theorem read_noteStart (hm : m.Legible) (h : r.cursor.amongAttributes = true)
    (hbefore : ∀ name, r.cursor ≠ .beforeValue name) :
    m.noteStart.foldl read r
      = ⟨.quoted '"' m.attributes.toList false, [], r.values ++ r.ended ' '⟩ := by
  obtain ⟨first, rest, hattributes⟩ := List.exists_cons_of_ne_nil hm.nonempty
  have hchars := hm.attributes
  have hends : Plain.EndsWord r.cursor := by
    cases hcursor : r.cursor with
    | between | attributeName | afterAttribute | unquoted => trivial
    | beforeValue name => exact absurd hcursor (hbefore name)
    | text | opening | bang | bangDash | beforeName | elementName | quoted | comment =>
        rw [hcursor] at h
        exact nomatch h
  have hstarts : Plain.StartsWord (r.read ' ').cursor := hends.next_blank (by decide)
  have hname : (m.attributes.toList.foldl read (r.read ' ')).cursor
      = .attributeName m.attributes.toList := by
    rw [cursor_foldl_read, hattributes, List.foldl_cons,
      hstarts.next_name (hchars first (by rw [hattributes]; simp)),
      Plain.foldl_next_attributeName _ fun c hc => hchars c (by rw [hattributes]; simp [hc])]
    rfl
  have hvalues : (m.attributes.toList.foldl read (r.read ' ')).values
      = r.values ++ r.ended ' ' := by
    have hne : r.cursor ≠ .text := Cursor.InAttributes.ne_text (.inl h)
    rw [(foldl_read_isBetweenValues (Cursor.isBetweenValues_of_startsWord hstarts) fun c hc =>
      (Plain.ne_of_isAttributeNameChar (hchars c hc)).2).2, values_read hne]
  show (' ' :: m.attributes.toList ++ ['=', '"']).foldl read r = _
  rw [List.cons_append, List.foldl_cons, List.foldl_append]
  generalize m.attributes.toList.foldl read (r.read ' ') = q at hname hvalues
  obtain ⟨cursor, value, values⟩ := q
  obtain rfl : cursor = _ := hname
  obtain rfl : values = _ := hvalues
  simp [read, valueBehind, ended, Cursor.next, isBlank]

/-- Where no value is awaited, a note is one more attribute of the tag. -/
theorem read_note (hm : m.Legible) (hnames : ∀ name ∈ names, NameText name)
    (h : r.cursor.amongAttributes = true) (hbefore : ∀ name, r.cursor ≠ .beforeValue name) :
    ((m.note names).foldl read r).cursor.isBetweenValues = true ∧
      ((m.note names).foldl read r).values = r.values ++ r.ended ' '
        ++ [(m.attributes.toList, (Markers.join names).takeWhile (· != '"'))] := by
  obtain ⟨behind, hjoin, hbehind⟩ := Markers.exists_behind_quote hnames
  have hquote : '"' ∉ (Markers.join names).takeWhile (· != '"') := fun hmem =>
    absurd (List.mem_takeWhile_imp hmem) (by decide)
  rw [Markers.note_eq, List.append_assoc, hjoin, List.foldl_append,
    read_noteStart hm h hbefore, List.foldl_append, foldl_read_quoted rfl hquote,
    List.foldl_cons]
  exact foldl_read_isBetweenValues rfl hbehind

/-- In a note nothing ends a tag. -/
theorem close_not_mem_note (hm : m.Legible) (hnames : ∀ name ∈ names, NameText name) :
    '>' ∉ m.note names := by
  have hattributes : '>' ∉ m.attributes.toList := fun hmem =>
    (Plain.ne_of_isAttributeNameChar (hm.attributes _ hmem)).2.2 rfl
  have hjoin : '>' ∉ Markers.join names := fun hmem => (Markers.ne_of_mem_join hnames hmem).2 rfl
  simp [Markers.note, hattributes, hjoin]

/-- An unquoted value ends in front of a note. -/
theorem exists_values_note_unquoted {name s : List Char} (hm : m.Legible)
    (hnames : ∀ name ∈ names, NameText name) (h : r.cursor = .unquoted name) (hs : '>' ∉ s) :
    ∃ more, ((s.foldl read ((m.note names).foldl read r)).read '>').values
      = r.values ++ (name, r.value) :: more := by
  obtain ⟨rest, hnote⟩ : ∃ rest, m.note names = ' ' :: rest := ⟨_, rfl⟩
  have hrest : '>' ∉ rest ++ s := by
    have hclose := close_not_mem_note hm hnames
    rw [hnote] at hclose
    simpa [hs] using hclose
  obtain ⟨cursor, value, values⟩ := r
  obtain rfl : cursor = .unquoted name := h
  have hblank : (⟨.unquoted name, value, values⟩ : TagReading).read ' '
      = ⟨.between, [], values ++ [(name, value)]⟩ := rfl
  obtain ⟨more, hmore⟩ := exists_values_close (r := ⟨.between, [], values ++ [(name, value)]⟩)
    (.inl rfl) hrest
  refine ⟨more, ?_⟩
  rw [hnote, List.foldl_cons, hblank, ← List.foldl_append, hmore, List.append_assoc]
  rfl

/-- A note in front of which a value is awaited begins the value. -/
theorem read_note_beforeValue {name rest : List Char} {first : Char} (hm : m.Legible)
    (hattributes : m.attributes.toList = first :: rest) (h : r.cursor = .beforeValue name) :
    (m.note names).foldl read r
      = (rest ++ ['=', '"'] ++ Markers.join names ++ ['"']).foldl read
          ⟨.unquoted name, [first], r.values⟩ := by
  have hfirstMem : first ∈ m.attributes.toList := by rw [hattributes]; simp
  have hdouble : first ≠ '"' := fun heq => hm.no_double (heq ▸ hfirstMem)
  have hsingle : first ≠ '\'' := fun heq => hm.no_single (heq ▸ hfirstMem)
  have hchar := hm.attributes first hfirstMem
  obtain ⟨-, -, hclose⟩ := Plain.ne_of_isAttributeNameChar hchar
  have hfirst : (r.read ' ').read first = ⟨.unquoted name, [first], r.values⟩ := by
    obtain ⟨cursor, value, values⟩ := r
    obtain rfl : cursor = .beforeValue name := h
    simp [read, valueBehind, ended, Cursor.next, Plain.isBlank_eq_false hchar, hdouble, hsingle,
      hclose, show isBlank ' ' = true from rfl]
  have hnote : m.note names
      = ' ' :: first :: (rest ++ ['=', '"'] ++ Markers.join names ++ ['"']) := by
    rw [Markers.note, hattributes]
    rfl
  rw [hnote, List.foldl_cons, List.foldl_cons, hfirst]

/-- So the value of that attribute is not what it was. -/
theorem exists_values_note_beforeValue {name s : List Char} (hm : m.Legible)
    (hnames : ∀ name ∈ names, NameText name) (h : r.cursor = .beforeValue name) (hs : '>' ∉ s) :
    ∃ first ∈ m.attributes.toList, ∃ behind more,
      ((s.foldl read ((m.note names).foldl read r)).read '>').values
        = r.values ++ (name, first :: behind) :: more := by
  obtain ⟨first, rest, hattributes⟩ := List.exists_cons_of_ne_nil hm.nonempty
  refine ⟨first, by rw [hattributes]; simp, ?_⟩
  have hclose := close_not_mem_note hm hnames
  rw [Markers.note, hattributes] at hclose
  rw [read_note_beforeValue hm hattributes h, ← List.foldl_append]
  refine exists_values_unquoted rfl rfl fun hmem => ?_
  rcases List.mem_append.mp hmem with hmem | hmem
  · exact hclose (List.mem_cons_of_mem _ (List.mem_cons_of_mem _ hmem))
  · exact hs hmem

/-- A note leaves the reading in its tag. -/
theorem amongAttributes_note (hm : m.Legible) (hnames : ∀ name ∈ names, NameText name)
    (h : r.cursor.amongAttributes = true) :
    ((m.note names).foldl read r).cursor.amongAttributes = true := by
  by_cases hbefore : ∃ name, r.cursor = .beforeValue name
  · obtain ⟨name, hname⟩ := hbefore
    obtain ⟨first, rest, hattributes⟩ := List.exists_cons_of_ne_nil hm.nonempty
    have hsign : ∀ c ∈ rest ++ ['=', '"'], isBlank c = false ∧ c ≠ '>' := by
      intro c hc
      rcases List.mem_append.mp hc with hmem | hmem
      · have hchar := hm.attributes c (by rw [hattributes]; simp [hmem])
        exact ⟨Plain.isBlank_eq_false hchar, (Plain.ne_of_isAttributeNameChar hchar).2.2⟩
      · have hmarks : ∀ x ∈ ['=', '"'], isBlank x = false ∧ x ≠ '>' :=
          List.forall_mem_cons.mpr ⟨by decide, List.forall_mem_singleton.mpr (by decide)⟩
        exact hmarks c hmem
    have hjoin : ∀ c ∈ Markers.join names ++ ['"'], c ≠ '=' ∧ c ≠ '>' := by
      intro c hc
      rcases List.mem_append.mp hc with hmem | hmem
      · exact Markers.ne_of_mem_join hnames hmem
      · rw [List.mem_singleton.mp hmem]
        decide
    rw [read_note_beforeValue hm hattributes hname, List.append_assoc, cursor_foldl_read,
      List.foldl_append, Plain.foldl_next_unquoted hsign]
    exact Cursor.amongAttributes_foldl_next (.inr ⟨name, rfl⟩) hjoin
  · rw [not_exists] at hbefore
    exact Cursor.amongAttributes_of_isBetweenValues (read_note hm hnames h hbefore).1

end TagReading

/-! ## In front of the end of a tag -/

namespace TagReading

variable {r₀ : TagReading} {names : List (List Char)} {slash : List Char}

/-- At the end of the tag ends what would end in front of a blank, unless a value is awaited. -/
theorem ended_close (h : r₀.cursor.amongAttributes = true)
    (hbefore : ∀ name, r₀.cursor ≠ .beforeValue name) : r₀.ended '>' = r₀.ended ' ' := by
  obtain ⟨cursor, value, values⟩ := r₀
  cases cursor with
  | between | attributeName | afterAttribute | unquoted => rfl
  | beforeValue name => exact absurd rfl (hbefore name)
  | text | opening | bang | bangDash | beforeName | elementName | quoted | comment =>
      exact nomatch h

/-- A note in front of the end of a tag, and in front of a slash there, keeps the values of the tag
if neither a value is awaited nor the slash belongs to one. -/
theorem values_note_kept (hm : m.Legible) (hnames : ∀ name ∈ names, NameText name)
    (h : r₀.cursor.amongAttributes = true) (hslash : slash = [] ∨ slash = ['/'])
    (hbefore : ∀ name, (slash.foldl read r₀).cursor ≠ .beforeValue name)
    (hbehind : slash = ['/'] → ∀ name, (slash.foldl read r₀).cursor ≠ .unquoted name) :
    ((slash.foldl read ((m.note names).foldl read r₀)).read '>').values
      = ((slash.foldl read r₀).read '>').values
        ++ [(m.attributes.toList, (Markers.join names).takeWhile (· != '"'))] := by
  have hmarks : ∀ c ∈ slash, c ≠ '=' ∧ c ≠ '>' := by
    rcases hslash with rfl | rfl
    · exact List.forall_mem_nil _
    · exact List.forall_mem_singleton.mpr (by decide)
  have hfront : (∀ name, r₀.cursor ≠ .beforeValue name) ∧
      ((slash.foldl read r₀).read '>').values = r₀.values ++ r₀.ended ' ' := by
    rcases hslash with rfl | rfl
    · exact ⟨hbefore, by rw [List.foldl_nil, values_read (Cursor.InAttributes.ne_text (.inl h)),
        ended_close h hbefore]⟩
    · rcases Cursor.next_slash h with ⟨hbetween, -⟩ | ⟨name, -, hnext⟩
      · obtain ⟨hcursor, hvalues⟩ := foldl_read_isBetweenValues hbetween hmarks
        refine ⟨fun name hname => ?_, ?_⟩
        · rw [hname] at hbetween
          cases hbetween
        · rw [values_read (Cursor.inAttributes_of_isBetweenValues hcursor).ne_text,
            ended_eq_nil hcursor, hvalues, ended_eq_nil hbetween]
      · exact absurd hnext (hbehind rfl name)
  obtain ⟨hcursor, hvalues⟩ := read_note hm hnames h hfront.1
  obtain ⟨hlast, hkept⟩ := foldl_read_isBetweenValues hcursor hmarks
  rw [values_read (Cursor.inAttributes_of_isBetweenValues hlast).ne_text, ended_eq_nil hlast,
    List.append_nil, hkept, hvalues, hfront.2]

/-- And else it does not keep them. -/
theorem values_note_lost (hm : m.Legible) (hnames : ∀ name ∈ names, NameText name)
    (h : r₀.cursor.amongAttributes = true) (hslash : slash = [] ∨ slash = ['/'])
    (hvalue : (∃ name, (slash.foldl read r₀).cursor = .beforeValue name) ∨
      slash = ['/'] ∧ ∃ name, (slash.foldl read r₀).cursor = .unquoted name)
    (note : List Char × List Char) :
    ((slash.foldl read ((m.note names).foldl read r₀)).read '>').values
      ≠ ((slash.foldl read r₀).read '>').values ++ [note] := by
  intro heq
  rcases hslash with rfl | rfl
  · obtain ⟨name, hname⟩ := hvalue.resolve_right fun hright => nomatch hright.1
    have hcursor : r₀.cursor = .beforeValue name := hname
    obtain ⟨first, -, behind, more, hmore⟩ :=
      exists_values_note_beforeValue hm hnames hcursor List.not_mem_nil
    obtain ⟨cursor, value, values⟩ := r₀
    obtain rfl : cursor = .beforeValue name := hname
    have hended : ((⟨.beforeValue name, value, values⟩ : TagReading).read '>').values
        = values ++ [(name, [])] := rfl
    rw [hmore, List.foldl_nil, hended, List.append_assoc] at heq
    exact nomatch List.append_cancel_left heq
  · have hclose : '>' ∉ ['/'] := by decide
    rcases Cursor.next_slash h with ⟨-, hnext⟩ | ⟨name, hname | hname, -⟩
    · have hcursor : (['/'].foldl read r₀).cursor = .between := hnext
      rw [hcursor] at hvalue
      rcases hvalue with ⟨name, hname⟩ | ⟨-, name, hname⟩ <;> exact nomatch hname
    · obtain ⟨first, hfirst, behind, more, hmore⟩ :=
        exists_values_note_beforeValue hm hnames hname hclose
      obtain ⟨cursor, value, values⟩ := r₀
      obtain rfl : cursor = .beforeValue name := hname
      have hended : ((['/'].foldl read (⟨.beforeValue name, value, values⟩ : TagReading)).read
          '>').values = values ++ [(name, ['/'])] := by
        simp [read, valueBehind, ended, Cursor.next, isBlank]
      rw [hmore, hended, List.append_assoc] at heq
      obtain ⟨hpair, -⟩ := List.cons.inj (List.append_cancel_left heq)
      obtain ⟨rfl, -⟩ := List.cons.inj (Prod.mk.inj hpair).2
      exact (Plain.ne_of_isAttributeNameChar (hm.attributes _ hfirst)).1 rfl
    · obtain ⟨more, hmore⟩ := exists_values_note_unquoted hm hnames hname hclose
      obtain ⟨cursor, value, values⟩ := r₀
      obtain rfl : cursor = .unquoted name := hname
      have hended : ((['/'].foldl read (⟨.unquoted name, value, values⟩ : TagReading)).read
          '>').values = values ++ [(name, value ++ ['/'])] := by
        simp [read, valueBehind, ended, Cursor.next, isBlank]
      rw [hmore, hended, List.append_assoc] at heq
      obtain ⟨hpair, -⟩ := List.cons.inj (List.append_cancel_left heq)
      simpa using (Prod.mk.inj hpair).2

end TagReading

end LiveTemplate
