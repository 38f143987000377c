import LiveTemplate.Proofs.Plain.Readings

/-!
# Scanning plainly written documents

A tag is scanned word by word and a document piece by piece, and each part of it passes as it says
of itself: `passes_word`, `passes_tag`, `passes_piece`.  A scan of a document writes the document
with its markers and finds its placeholders: `scan_fragments`.
-/

namespace LiveTemplate.Plain

set_option autoImplicit false

open Text

/-! ## Inside tags -/

/-- The cursor stands in a tag, and a word may end here. -/
def EndsWord : Cursor → Prop
  | .elementName | .between | .attributeName _ | .afterAttribute _ | .unquoted _ => True
  | _ => False

/-- The cursor stands in a tag, and the tag may close itself here. -/
def EndsTag : Cursor → Prop
  | .elementName | .between | .attributeName _ | .afterAttribute _ => True
  | _ => False

theorem EndsTag.endsWord {cursor : Cursor} (h : EndsTag cursor) : EndsWord cursor := by
  cases cursor <;> trivial

/-- The cursor stands in a tag, and a word may begin here. -/
def StartsWord : Cursor → Prop
  | .between | .afterAttribute _ => True
  | _ => False

theorem StartsWord.endsTag {cursor : Cursor} (h : StartsWord cursor) : EndsTag cursor := by
  cases cursor <;> trivial

theorem EndsWord.inTag {cursor : Cursor} (h : EndsWord cursor) : cursor.inTag = true := by
  cases cursor <;> first | rfl | exact h.elim

theorem isBlank_eq_false {c : Char} (h : Html.isAttributeNameChar c = true) :
    isBlank c = false := by
  simp only [Html.isAttributeNameChar, Bool.not_eq_true', Bool.or_eq_false_iff] at h
  exact h.1.1.1

theorem ne_of_isAttributeNameChar {c : Char} (h : Html.isAttributeNameChar c = true) :
    c ≠ '/' ∧ c ≠ '=' ∧ c ≠ '>' := by
  simp only [Html.isAttributeNameChar, Bool.not_eq_true', Bool.or_eq_false_iff,
    beq_eq_false_iff_ne] at h
  exact ⟨h.1.1.2, h.1.2, h.2⟩

theorem EndsWord.next_blank {cursor : Cursor} {c : Char} (h : EndsWord cursor)
    (hc : isBlank c = true) : StartsWord (cursor.next c) := by
  have hclose : c ≠ '>' := by
    rintro rfl
    exact absurd hc (by decide)
  cases cursor with
  | elementName => simp [Cursor.next, Cursor.nextInName, hc, hclose, StartsWord]
  | between => simp [Cursor.next, Cursor.nextBetween, hc, hclose, StartsWord]
  | attributeName name => simp [Cursor.next, hc, StartsWord]
  | afterAttribute name => simp [Cursor.next, hc, StartsWord]
  | unquoted name => simp [Cursor.next, hc, StartsWord]
  | text | opening | bang | bangDash | beforeName | beforeValue | quoted | comment => exact h.elim

/-- Spacing leads to where a word may begin. -/
theorem EndsWord.foldl_next {cursor : Cursor} {s : List Char} (h : EndsWord cursor)
    (hs : ∀ c ∈ s, isSpacing c = true) :
    EndsWord (s.foldl Cursor.next cursor) ∧
      (s ≠ [] → StartsWord (s.foldl Cursor.next cursor)) := by
  induction s generalizing cursor with
  | nil => exact ⟨h, fun hne => absurd rfl hne⟩
  | cons c rest ih =>
      have hnext := h.next_blank (isBlank_of_isSpacing (hs c (by simp)))
      obtain ⟨hends, hstarts⟩ := ih hnext.endsTag.endsWord fun x hx => hs x (by simp [hx])
      refine ⟨hends, fun _ => ?_⟩
      cases rest with
      | nil => exact hnext
      | cons x rest => exact hstarts (by simp)

theorem StartsWord.next_name {cursor : Cursor} {c : Char} (h : StartsWord cursor)
    (hc : Html.isAttributeNameChar c = true) : cursor.next c = .attributeName [c] := by
  obtain ⟨hslash, hequals, hclose⟩ := ne_of_isAttributeNameChar hc
  cases cursor with
  | between =>
      simp [Cursor.next, Cursor.nextBetween, isBlank_eq_false hc, hslash, hequals, hclose]
  | afterAttribute name =>
      simp [Cursor.next, Cursor.nextBetween, isBlank_eq_false hc, hslash, hequals, hclose]
  | text | opening | bang | bangDash | beforeName | elementName | attributeName | beforeValue
  | unquoted | quoted | comment => exact h.elim

theorem foldl_next_attributeName {s : List Char} (name : List Char) (hs : NameText s) :
    s.foldl Cursor.next (.attributeName name) = .attributeName (name ++ s) := by
  induction s generalizing name with
  | nil => rw [List.foldl_nil, List.append_nil]
  | cons c rest ih =>
      have hc := hs c (by simp)
      obtain ⟨hslash, hequals, hclose⟩ := ne_of_isAttributeNameChar hc
      have hnext : (Cursor.attributeName name).next c = .attributeName (name ++ [c]) := by
        simp [Cursor.next, isBlank_eq_false hc, hslash, hequals, hclose]
      rw [List.foldl_cons, hnext, ih _ fun x hx => hs x (by simp [hx]), List.append_assoc]
      rfl

/-- A name is read where a word may begin. -/
theorem StartsWord.foldl_name {cursor : Cursor} (h : StartsWord cursor) (name : AttributeName) :
    name.chars.foldl Cursor.next cursor = .attributeName name.chars := by
  obtain ⟨c, rest, hchars⟩ := List.exists_cons_of_ne_nil name.nonempty
  have hplain := name.plain
  rw [hchars] at hplain ⊢
  rw [List.foldl_cons, h.next_name (hplain c (by simp)),
    foldl_next_attributeName _ fun x hx => hplain x (by simp [hx])]
  rfl

theorem passes_spacing {cursor : Cursor} (pending : List (List Char)) (s : Spacing) :
    Passes Unslashed ⟨cursor, pending⟩ (s.chars.map some) s.chars []
      ⟨s.chars.foldl Cursor.next cursor, pending⟩ Unslashed := by
  have hmark : ∀ c : Char, isSpacing c = false → c ∉ s.chars := fun c hc hmem =>
    absurd (s.spacing c hmem) (by simp [hc])
  exact passes_chars cursor pending (hmark '>' (by decide))
    fun hlast => hmark '/' (by decide) (List.mem_of_getLast? hlast)

theorem passes_name {cursor : Cursor} (pending : List (List Char)) (h : StartsWord cursor)
    (name : AttributeName) :
    Passes Unslashed ⟨cursor, pending⟩ (name.chars.map some) name.chars []
      ⟨.attributeName name.chars, pending⟩ Unslashed := by
  rw [← h.foldl_name name]
  have hmark : ∀ c ∈ name.chars, c ≠ '/' ∧ c ≠ '=' ∧ c ≠ '>' := fun c hc =>
    ne_of_isAttributeNameChar (name.plain c hc)
  exact passes_chars cursor pending (fun hmem => (hmark _ hmem).2.2 rfl)
    fun hlast => (hmark _ (List.mem_of_getLast? hlast)).1 rfl

/-- Between a name and its value stand an equals sign and spacing. -/
theorem foldl_next_sign (name : List Char) (sign : Sign) :
    sign.chars.foldl Cursor.next (.attributeName name) = .beforeValue name := by
  have hbehind : ∀ s : List Char, (∀ c ∈ s, isSpacing c = true) →
      s.foldl Cursor.next (.afterAttribute name) = .afterAttribute name ∧
        s.foldl Cursor.next (.beforeValue name) = .beforeValue name := by
    intro s hs
    induction s with
    | nil => exact ⟨rfl, rfl⟩
    | cons c rest ih =>
        have hblank := isBlank_of_isSpacing (hs c (by simp))
        have hafter : (Cursor.afterAttribute name).next c = .afterAttribute name := if_pos hblank
        have hbefore : (Cursor.beforeValue name).next c = .beforeValue name := if_pos hblank
        rw [List.foldl_cons, List.foldl_cons, hafter, hbefore]
        exact ih fun x hx => hs x (by simp [hx])
  unfold Sign.chars
  rw [List.foldl_append, List.foldl_cons]
  cases hchars : sign.before.chars with
  | nil => exact (hbehind _ sign.after.spacing).2
  | cons c rest =>
      have hspacing := sign.before.spacing
      rw [hchars] at hspacing
      have hfirst : (Cursor.attributeName name).next c = .afterAttribute name :=
        if_pos (isBlank_of_isSpacing (hspacing c (by simp)))
      rw [List.foldl_cons, hfirst, (hbehind rest fun x hx => hspacing x (by simp [hx])).1]
      exact (hbehind _ sign.after.spacing).2

theorem Sign.not_mem (sign : Sign) {c : Char} (hspacing : isSpacing c = false) (hsign : c ≠ '=') :
    c ∉ sign.chars := by
  intro hmem
  rcases List.mem_append.mp hmem with hbefore | hrest
  · exact absurd (sign.before.spacing c hbefore) (by simp [hspacing])
  · rcases List.mem_cons.mp hrest with heq | hafter
    · exact hsign heq
    · exact absurd (sign.after.spacing c hafter) (by simp [hspacing])

/-- An attribute is read up to where its value begins. -/
theorem passes_signed {cursor : Cursor} (pending : List (List Char)) (h : StartsWord cursor)
    (name : AttributeName) (sign : Sign) :
    Passes Unslashed ⟨cursor, pending⟩ ((name.chars ++ sign.chars).map some)
      (name.chars ++ sign.chars) [] ⟨.beforeValue name.chars, pending⟩ Unslashed := by
  have hsign := passes_chars (.attributeName name.chars) pending
    (sign.not_mem (c := '>') (by decide) (by decide))
    fun hlast => sign.not_mem (c := '/') (by decide) (by decide) (List.mem_of_getLast? hlast)
  rw [foldl_next_sign] at hsign
  rw [List.map_append]
  exact (passes_name pending h name).append hsign

/-- An unquoted value goes on up to a blank or the end of the tag. -/
theorem foldl_next_unquoted {name s : List Char} (hs : ∀ c ∈ s, isBlank c = false ∧ c ≠ '>') :
    s.foldl Cursor.next (.unquoted name) = .unquoted name := by
  induction s with
  | nil => rfl
  | cons c rest ih =>
      obtain ⟨hblank, hclose⟩ := hs c (by simp)
      have hnext : (Cursor.unquoted name).next c = .unquoted name := by
        simp [Cursor.next, hblank, hclose]
      rw [List.foldl_cons, hnext, ih fun x hx => hs x (by simp [hx])]

/-- A value without quotes is read as it is written. -/
theorem passes_bare (pending : List (List Char)) (name : List Char) (value : BareValue) :
    Passes Unslashed ⟨.beforeValue name, pending⟩ (value.chars.map some) value.chars []
      ⟨.unquoted name, pending⟩ Unslashed := by
  have hchar : ∀ c ∈ value.chars, isBlank c = false ∧ c ≠ '>' := by
    intro c hc
    simpa [Html.isBareValueChar] using value.plain c hc
  have hall : value.chars.foldl Cursor.next (.beforeValue name) = .unquoted name := by
    obtain ⟨c, rest, hchars⟩ := List.exists_cons_of_ne_nil value.nonempty
    have hbegins := value.begins
    rw [hchars] at hchar hbegins ⊢
    obtain ⟨hblank, hclose⟩ := hchar c (by simp)
    have hdouble : c ≠ '"' := fun heq => hbegins '"' (by simp) (congrArg some heq)
    have hsingle : c ≠ '\'' := fun heq => hbegins '\'' (by simp) (congrArg some heq)
    have hfirst : (Cursor.beforeValue name).next c = .unquoted name := by
      simp [Cursor.next, hblank, hclose, hdouble, hsingle]
    rw [List.foldl_cons, hfirst]
    exact foldl_next_unquoted fun x hx => hchar x (by simp [hx])
  have hpasses := passes_chars (.beforeValue name) pending
    (fun hmem => (hchar _ hmem).2 rfl) value.ends
  rwa [hall] at hpasses

/-- The placeholders in a quoted value put the name of its attribute on the list. -/
theorem passes_value (quote : Char) (name : List Char) (carried : Bool)
    (pending : List (List Char)) (value : List (Option Char)) (hvalue : some quote ∉ value) :
    ∃ name' carried', lower name' = lower name ∧
      Passes Anything ⟨.quoted quote name carried, pending⟩ value (written value)
        ((List.replicate (holes value) (lower name)).map some)
        ⟨.quoted quote name' carried', pending ++ List.replicate (holes value) (lower name)⟩
        Anything := by
  induction value generalizing name carried pending with
  | nil =>
      refine ⟨name, carried, rfl, ?_⟩
      simpa [holes, written] using Passes.nil Anything ⟨.quoted quote name carried, pending⟩
  | cons x rest ih =>
      have hrest : some quote ∉ rest := fun hmem => hvalue (by simp [hmem])
      cases x with
      | some c =>
          obtain ⟨name', carried', hname, hpasses⟩ := ih name carried pending hrest
          have hc : c ≠ quote := fun heq => hvalue (by simp [heq])
          have hnext : (Cursor.quoted quote name carried).next c = .quoted quote name carried :=
            if_neg hc
          have hfirst := Passes.char Anything (.quoted quote name carried) pending (c := c)
            fun _ htag => absurd htag (by simp [Cursor.inTag])
          rw [hnext] at hfirst
          have hboth := hfirst.forget.append hpasses
          refine ⟨name', carried', hname, ?_⟩
          simpa [holes, written] using hboth
      | none =>
          obtain ⟨name', carried', hname, hpasses⟩ := ih (lower name) true
            (pending ++ [lower name]) hrest
          rw [lower_lower] at hname hpasses
          have hfirst : Passes Anything ⟨.quoted quote name carried, pending⟩ [none] []
              [some (lower name)] ⟨.quoted quote (lower name) true, pending ++ [lower name]⟩
              (· = []) :=
            Passes.cut fun _ => nofun
          have hboth := hfirst.forget.append hpasses
          refine ⟨name', carried', hname, ?_⟩
          simpa [holes, written, List.replicate_succ] using hboth

/-- A word is written with its markers taken out, and its placeholders are put on the list. -/
theorem passes_word {cursor : Cursor} (pending : List (List Char)) (h : StartsWord cursor)
    (w : Word) :
    ∃ cursor', EndsWord cursor' ∧ (w.runsOn = false → EndsTag cursor') ∧
      Passes Unslashed ⟨cursor, pending⟩ w.holed w.marked (w.names.map some)
        ⟨cursor', pending ++ w.names⟩ Unslashed := by
  have hnothing : ∀ written : List Char, written = [] → Unslashed written := by
    rintro _ rfl
    exact nofun
  cases w with
  | flag name =>
      refine ⟨.attributeName name.chars, trivial, fun _ => trivial, ?_⟩
      simpa [Word.holed, Word.marked, Word.names] using passes_name pending h name
  | quoted name sign quote value closed =>
      have hmarks : quote.char ≠ '>' ∧ quote.char ≠ '/' := by cases quote <;> decide
      have hopens : (Cursor.beforeValue name.chars).next quote.char
          = .quoted quote.char name.chars false := by
        cases quote <;> rfl
      obtain ⟨name', carried', hname, hvalue⟩ := passes_value quote.char name.chars false
        pending value closed
      have hcloses : (Cursor.quoted quote.char name' carried').next quote.char = .between :=
        if_pos rfl
      have hopen := passes_char Unslashed (.beforeValue name.chars) pending quote.char
        hmarks.1 hmarks.2
      have hclose := passes_char Anything (.quoted quote.char name' carried')
        (pending ++ List.replicate (holes value) (lower name.chars)) quote.char hmarks.1 hmarks.2
      rw [hopens] at hopen
      rw [hcloses] at hclose
      have hall := (((passes_signed pending h name sign).append hopen).append
        hvalue.of_anything).append hclose
      refine ⟨.between, trivial, fun _ => trivial, ?_⟩
      simpa [Word.holed, Word.marked, Word.names] using hall
  | bare name sign value full =>
      have hvalue := (passes_signed pending h name sign).append
        (passes_bare pending name.chars value)
      cases full with
      | false =>
          have hruns : (Word.bare name sign value false).runsOn = true := rfl
          refine ⟨.unquoted name.chars, trivial, fun hends => absurd hends (by simp [hruns]), ?_⟩
          simpa [Word.holed, Word.marked, Word.names] using hvalue
      | true =>
          have hcut : Passes Unslashed ⟨.unquoted name.chars, pending⟩ [none] []
              [some (lower name.chars)] ⟨.between, pending ++ [lower name.chars]⟩ (· = []) :=
            Passes.cut fun _ => nofun
          refine ⟨.between, trivial, fun _ => trivial, ?_⟩
          simpa [Word.holed, Word.marked, Word.names] using
            (hvalue.append hcut).imp hnothing
  | filled name sign =>
      have hcut : Passes Unslashed ⟨.beforeValue name.chars, pending⟩ [none] ['"', '"']
          [some (lower name.chars)] ⟨.between, pending ++ [lower name.chars]⟩ (· = []) :=
        Passes.cut fun _ => nofun
      refine ⟨.between, trivial, fun _ => trivial, ?_⟩
      simpa [Word.holed, Word.marked, Word.names] using
        ((passes_signed pending h name sign).append hcut).imp hnothing
  | hole =>
      have hcut : Passes Unslashed ⟨cursor, pending⟩ [none] [] [some []]
          ⟨.between, pending ++ [[]]⟩ (· = []) := by
        cases cursor with
        | between | afterAttribute name => exact Passes.cut fun _ => nofun
        | text | opening | bang | bangDash | beforeName | elementName | attributeName | beforeValue
        | unquoted | quoted | comment => exact h.elim
      exact ⟨.between, trivial, fun _ => trivial, hcut.imp hnothing⟩

/-- So are all words of a tag, with the gaps between them. -/
theorem passes_words {cursor : Cursor} (pending : List (List Char)) (h : EndsTag cursor)
    (words : List (Gap × Word)) :
    ∃ cursor', EndsWord cursor' ∧ (words.getLast?.any (·.2.runsOn) = false → EndsTag cursor') ∧
      Passes Unslashed ⟨cursor, pending⟩
        (words.flatMap fun w => w.1.chars.map some ++ w.2.holed)
        (words.flatMap fun w => w.1.chars ++ w.2.marked) ((words.flatMap (·.2.names)).map some)
        ⟨cursor', pending ++ words.flatMap (·.2.names)⟩ Unslashed := by
  induction words using List.reverseRecOn with
  | nil =>
      refine ⟨cursor, h.endsWord, fun _ => h, ?_⟩
      simpa using Passes.nil Unslashed ⟨cursor, pending⟩
  | append_singleton words w ih =>
      obtain ⟨gap, word⟩ := w
      obtain ⟨cursor', hends, -, hwords⟩ := ih
      have hstarts := (hends.foldl_next gap.spacing).2 gap.nonempty
      obtain ⟨cursor'', hends', htag, hword⟩ :=
        passes_word (pending ++ words.flatMap (·.2.names)) hstarts word
      have hall := (hwords.append (passes_spacing _ gap.toSpacing)).append hword
      refine ⟨cursor'', hends', fun hlast => htag (by simpa using hlast), ?_⟩
      simpa using hall

/-- What has been written when a tag has ended. -/
def closeTag (pending : List (List Char)) (written : List Char) : List Char :=
  if pending = [] then written else ScanProgress.withNote (({} : Markers).note pending) written

theorem read_close {cursor : Cursor} (pending : List (List Char)) (h : cursor.inTag = true)
    (written : List Char) :
    ScanProgress.read {} ⟨⟨cursor, pending⟩, written⟩ '>'
      = ⟨⟨.text, []⟩, '>' :: closeTag pending written⟩ := by
  by_cases hpending : pending = []
  · have hopen : (⟨⟨cursor, pending⟩, written⟩ : ScanProgress).closes '>' = false :=
      Bool.eq_false_iff.mpr fun hcloses => (ScanProgress.closes_eq_true_iff.mp hcloses).2 hpending
    rw [ScanProgress.read_of_not_closes hopen, Cursor.next_close h, closeTag, if_pos hpending,
      hpending]
  · rw [ScanProgress.read_of_closes (ScanProgress.closes_eq_true_iff.mpr ⟨⟨rfl, h⟩, hpending⟩),
      closeTag, if_neg hpending]

theorem closeTag_of_unslashed (pending : List (List Char)) {written : List Char}
    (h : Unslashed written) : closeTag pending written = (Tag.note pending).reverse ++ written := by
  unfold closeTag Tag.note
  split
  · rfl
  · unfold ScanProgress.withNote
    split
    · exact absurd rfl h
    · rfl

theorem closeTag_slash (pending : List (List Char)) (written : List Char) :
    closeTag pending ('/' :: written) = '/' :: ((Tag.note pending).reverse ++ written) := by
  unfold closeTag Tag.note
  split <;> rfl

/-- The end of a tag is written behind the note of its placeholders. -/
theorem passes_tagEnd {cursor : Cursor} (pending : List (List Char)) (h : EndsWord cursor)
    {closed : Bool} (hclosed : closed = true → EndsTag cursor) :
    Passes Unslashed ⟨cursor, pending⟩ ((tagEnd closed).map some)
      (Tag.note pending ++ tagEnd closed) [] ⟨.text, []⟩ Anything := by
  intro written hwritten
  cases closed with
  | false =>
      refine ⟨[], '>' :: closeTag pending written, trivial, .read ?_, ?_⟩
      · rw [read_close pending h.inTag]
        exact .nil _
      · simp [closeTag_of_unslashed pending hwritten, tagEnd]
  | true =>
      have hslash : ScanProgress.read {} ⟨⟨cursor, pending⟩, written⟩ '/'
          = ⟨⟨.between, pending⟩, '/' :: written⟩ := by
        have hends := hclosed rfl
        cases cursor with
        | elementName | between | attributeName | afterAttribute => rfl
        | text | opening | bang | bangDash | beforeName | beforeValue | unquoted | quoted
        | comment => exact hends.elim
      refine ⟨[], '>' :: closeTag pending ('/' :: written), trivial, .read (.read ?_), ?_⟩
      · rw [hslash, read_close pending rfl]
        exact .nil _
      · simp [closeTag_slash, tagEnd]

theorem isElementNameChar_of_isEndTagNameChar {c : Char} (h : Html.isEndTagNameChar c = true) :
    isElementNameChar c = true := by
  obtain ⟨-, hblank, hmarks⟩ := nameChar h
  simp only [List.mem_cons, List.not_mem_nil, or_false, not_or] at hmarks
  simp [isElementNameChar, hblank, hmarks]

/-- The name of an element is read behind a `<`, or behind a slash. -/
theorem foldl_next_tagName (name : TagName) :
    name.chars.foldl Cursor.next .opening = .elementName ∧
      name.chars.foldl Cursor.next .beforeName = .elementName := by
  obtain ⟨-, hblank, hmarks⟩ := nameChar (name.isEndTagNameChar (List.mem_cons_self ..))
  simp only [List.mem_cons, List.not_mem_nil, or_false, not_or] at hmarks
  have hopening : Cursor.opening.next name.first = .elementName := by
    simp [Cursor.next, Cursor.nextInName, hblank, hmarks]
  have hbefore : Cursor.beforeName.next name.first = .elementName := by
    simp [Cursor.next, Cursor.nextInName, hblank, hmarks]
  unfold TagName.chars
  rw [List.foldl_cons, List.foldl_cons, hopening, hbefore]
  have hrest : name.rest.foldl Cursor.next .elementName = .elementName :=
    Cursor.foldl_next_elementName fun c hc =>
      isElementNameChar_of_isEndTagNameChar (name.plain c hc)
  exact ⟨hrest, hrest⟩

/-- A tag is written with its marker, and its placeholders wait no longer. -/
theorem passes_tag (t : Tag) :
    Passes Anything ⟨.text, []⟩ t.holed t.marked (t.names.map some) ⟨.text, []⟩ Anything := by
  have hopen := passes_char Anything .text [] '<' (by decide) (by decide)
  have hname := passes_chars .opening [] (t.name.not_mem (c := '>') (by simp))
    fun hlast => t.name.not_mem (c := '/') (by simp) (List.mem_of_getLast? hlast)
  rw [(foldl_next_tagName t.name).1] at hname
  have hstart : EndsTag .elementName := trivial
  obtain ⟨cursor, hends, htag, hwords⟩ := passes_words [] hstart t.words
  obtain ⟨hends', hstarts⟩ := hends.foldl_next t.tail.spacing
  have hclosed : t.closed = true → EndsTag (t.tail.chars.foldl Cursor.next cursor) := by
    intro hclosed
    by_cases htail : t.tail.chars = []
    · rw [htail]
      exact htag (t.apart hclosed htail)
    · exact (hstarts htail).endsTag
  have hend := passes_tagEnd t.names hends' hclosed
  have hall := (((hopen.append hname).append hwords).append (passes_spacing t.names t.tail)).append
    hend
  simpa [Tag.holed, Tag.marked, Tag.names] using hall

/-! ## Pieces of a document -/

theorem foldl_next_text {s : List Char} (hs : '<' ∉ s) : s.foldl Cursor.next .text = .text := by
  induction s with
  | nil => rfl
  | cons c rest ih =>
      have hc : c ≠ '<' := fun heq => hs (by simp [heq])
      have hnext : Cursor.text.next c = .text := if_neg hc
      rw [List.foldl_cons, hnext, ih fun hmem => hs (by simp [hmem])]

theorem foldl_next_comment {dashed : Bool} {s : List Char} (hs : isCommentText dashed s = true) :
    s.foldl Cursor.next (.comment (if dashed then 1 else 0)) = .comment 0 := by
  induction s generalizing dashed with
  | nil =>
      obtain rfl : dashed = false := by simpa [isCommentText] using hs
      rfl
  | cons c rest ih =>
      rw [isCommentText] at hs
      by_cases hc : c = '-'
      · rw [if_pos hc, Bool.and_eq_true, Bool.not_eq_true'] at hs
        obtain ⟨rfl, hrest⟩ := hs
        rw [hc]
        exact ih hrest
      · rw [if_neg hc] at hs
        have hnext : (Cursor.comment (if dashed then 1 else 0)).next c = .comment 0 := by
          cases dashed <;> simp [Cursor.next, hc]
        rw [List.foldl_cons, hnext]
        exact ih hs

theorem EndsWord.foldl_plain {cursor : Cursor} {s : List Char} (h : EndsWord cursor)
    (hs : ∀ c ∈ s, c ≠ '>' ∧ c ≠ '=') : EndsWord (s.foldl Cursor.next cursor) := by
  induction s generalizing cursor with
  | nil => exact h
  | cons c rest ih =>
      obtain ⟨hclose, hequals⟩ := hs c (by simp)
      refine ih ?_ fun x hx => hs x (by simp [hx])
      have hbetween : EndsWord (Cursor.nextBetween c) := by
        unfold Cursor.nextBetween
        rw [if_neg hclose, if_neg hequals]
        split <;> trivial
      cases cursor with
      | elementName =>
          rw [Cursor.next, Cursor.nextInName, if_neg hclose]
          split <;> trivial
      | between => exact hbetween
      | attributeName name =>
          rw [Cursor.next, if_neg hequals]
          split
          · trivial
          · split
            · exact hbetween
            · trivial
      | afterAttribute name =>
          rw [Cursor.next, if_neg hequals]
          split
          · trivial
          · exact hbetween
      | unquoted name =>
          rw [Cursor.next, if_neg hclose]
          split <;> trivial
      | text | opening | bang | bangDash | beforeName | beforeValue | quoted | comment =>
          exact h.elim

/-- Text that leads back to text is written as it is. -/
theorem passes_chars_text {s : List Char} (h : s.foldl Cursor.next .text = .text) :
    Passes Anything ⟨.text, []⟩ (s.map some) s [] ⟨.text, []⟩ Anything := by
  have hchars := Passes.chars Anything .text [] (s := s) (.inl rfl)
  rw [h] at hchars
  exact hchars.forget

theorem passes_hole :
    Passes Anything ⟨.text, []⟩ [none] (({} : Markers).element .html) [none] ⟨.text, []⟩
      Anything := by
  have hcut : Passes Anything ⟨.text, []⟩ [none] (({} : Markers).element .html) [none] ⟨.text, []⟩
      (· = []) :=
    Passes.cut fun _ => nofun
  exact hcut.forget

/-- Raw text is written with the marker elements of its placeholders. -/
theorem passes_content {content : List (Option Char)} (h : some '<' ∉ content) :
    Passes Anything ⟨.text, []⟩ content (Piece.markedText content)
      (List.replicate (holes content) none) ⟨.text, []⟩ Anything := by
  induction content with
  | nil => exact .nil _ _
  | cons x rest ih =>
      have hrest := ih fun hmem => h (by simp [hmem])
      cases x with
      | none =>
          have hboth := passes_hole.append hrest
          simpa [Piece.markedText, holes, List.replicate_succ] using hboth
      | some c =>
          have hc : c ≠ '<' := fun heq => h (by simp [heq])
          have hfirst := passes_chars_text (foldl_next_text (s := [c]) (by simp [hc.symm]))
          have hboth := hfirst.append hrest
          simpa [Piece.markedText, holes] using hboth

theorem passes_endTag (name : TagName) :
    Passes Anything ⟨.text, []⟩ ((endTagOf name.chars).map some) (endTagOf name.chars) []
      ⟨.text, []⟩ Anything := by
  refine passes_chars_text ?_
  unfold endTagOf
  rw [List.foldl_append, List.foldl_append]
  show ['>'].foldl Cursor.next (name.chars.foldl Cursor.next .beforeName) = _
  rw [(foldl_next_tagName name).2]
  rfl

/-- A piece of a document is written with its markers. -/
theorem passes_piece (x : Piece) :
    Passes Anything ⟨.text, []⟩ x.holed x.marked x.placeholders ⟨.text, []⟩ Anything := by
  cases x with
  | text s plain => exact passes_chars_text (foldl_next_text fun hmem => (plain _ hmem).1 rfl)
  | reference name plain =>
      refine passes_chars_text (foldl_next_text ?_)
      simpa using name.not_mem (c := '<') (by simp)
  | ampersand next letter plain =>
      refine passes_chars_text (foldl_next_text fun hmem => ?_)
      obtain rfl : '<' = next := by simpa using hmem
      exact plain (by simp)
  | hole => exact passes_hole
  | startTag t parsed => exact passes_tag t
  | endTag name => exact passes_endTag name
  | comment s plain =>
      refine passes_chars_text ?_
      rw [List.foldl_append, List.foldl_append]
      show "-->".toList.foldl Cursor.next (s.foldl Cursor.next (.comment 0)) = _
      rw [show s.foldl Cursor.next (.comment 0) = .comment 0 from foldl_next_comment plain]
      rfl
  | doctype s plain =>
      refine passes_chars_text ?_
      have hword : "<!doctype".toList.foldl Cursor.next .text = .elementName := by decide
      have hends : EndsWord (s.foldl Cursor.next .elementName) := EndsWord.foldl_plain trivial plain
      rw [List.foldl_append, List.foldl_append, hword, List.foldl_cons, List.foldl_nil]
      exact Cursor.next_close hends.inTag
  | raw t raw content plain =>
      have hall := ((passes_tag t).append (passes_content plain)).append (passes_endTag t.name)
      rw [List.append_nil] at hall
      exact hall

/-- A document is written with its markers. -/
theorem passes_document (doc : Document) :
    Passes Anything ⟨.text, []⟩ doc.holed doc.marked (doc.flatMap Piece.placeholders) ⟨.text, []⟩
      Anything := by
  induction doc with
  | nil => exact .nil _ _
  | cons x rest ih =>
      have hall := (passes_piece x).append ih
      simpa [Document.holed, Document.marked] using hall

theorem map_toList_fragments (doc : Document) :
    doc.fragments.map String.toList = fragmentsOf doc.holed := by
  unfold Document.fragments
  rw [List.map_map]
  exact (List.map_congr_left fun t _ => String.toList_ofList).trans (List.map_id _)

/-- A scan of a document succeeds, writes the document with its markers, and finds its
placeholders. -/
theorem scan_fragments (doc : Document) :
    (∃ texts, (scan {} .html doc.fragments).1 = .ok texts ∧
        (String.join texts).toList = doc.marked) ∧
      placeholders {} .html .text (doc.fragments.map String.toList)
        = doc.flatMap Piece.placeholders := by
  obtain ⟨out, written, -, hscans, htext⟩ := passes_document doc [] trivial
  obtain ⟨first, others, hfragments⟩ := exists_fragmentsOf doc.holed
  obtain ⟨⟨texts, hscan, hflat⟩, hplaceholders⟩ := scanOn_of_scans 0 hscans rfl hfragments
  rw [map_toList_fragments, hfragments]
  refine ⟨⟨texts.map String.ofList, ?_, ?_⟩, hplaceholders⟩
  · unfold scan
    rw [map_toList_fragments, hfragments, scanFrom_cons, hscan]
  · rw [String.toList_join, List.flatMap_map]
    simp only [String.toList_ofList, List.flatMap_id']
    exact hflat.trans htext

end LiveTemplate.Plain
