import LiveTemplate.Html.Token
import LiveTemplate.Proofs.Text.Lowered
import LiveTemplate.Scan

/-!
# Where the reading of a fragment stands

While a fragment is scanned, the cursor moves as `Cursor.next` says, whatever is put in:
`cursor_read`.  Three facts about it carry everything else.  The end of a tag leads to text
(`next_close`).  A cursor holds only names of attributes, in which neither blanks nor the marks
that end a name occur (`nameText_next`).  And where a tag has not come to its attributes yet, no
placeholder stands in it, so none is waiting to be noted (`Settled.read`).
-/

namespace LiveTemplate

set_option autoImplicit false

open Text

/-! ## Names of attributes -/

/-- A text that may be the name of an attribute: no character of it ends one. -/
def NameText (name : List Char) : Prop := ∀ c ∈ name, Html.isAttributeNameChar c = true

theorem NameText.nil : NameText [] := nofun

theorem nameText_append {name : List Char} {c : Char} (h : NameText name)
    (hc : Html.isAttributeNameChar c = true) : NameText (name ++ [c]) := by
  intro x hx
  rcases List.mem_append.mp hx with hx | hx
  · exact h x hx
  · exact List.mem_singleton.mp hx ▸ hc

theorem isAttributeNameChar_of_isLowered {c : Char} (h : isLowered c = true) :
    Html.isAttributeNameChar c = true := by
  unfold isLowered at h
  rw [Bool.and_eq_true, Bool.not_eq_true'] at h
  have hne : ∀ x ∈ ['/', '=', '>'], c ≠ x := by
    rintro x hx rfl
    have hmark : (c.isAlpha || decide (0x80 ≤ c.toNat)) = false := by
      simp only [List.mem_cons, List.not_mem_nil, or_false] at hx
      rcases hx with rfl | rfl | rfl <;> rfl
    rw [hmark] at h
    exact nomatch h.2
  unfold Html.isAttributeNameChar
  simp only [h.1, Bool.false_or, Bool.not_eq_true', Bool.or_eq_false_iff, beq_eq_false_iff_ne]
  exact ⟨⟨hne '/' (by simp), hne '=' (by simp)⟩, hne '>' (by simp)⟩

/-- Names keep being names when they are spelled for a marker. -/
theorem nameText_spellName (d : Dialect) {name : List Char} (h : NameText name) :
    NameText (spellName d name) := by
  cases d with
  | svg => exact h
  | html =>
      intro c hc
      rcases mem_lower hc with hmem | hlowered
      · exact h c hmem
      · exact isAttributeNameChar_of_isLowered hlowered

/-- A name that is spelled for a marker is spelled already. -/
theorem spellName_spellName (d : Dialect) (name : List Char) :
    spellName d (spellName d name) = spellName d name := by
  cases d with
  | svg => rfl
  | html => exact lower_lower name

/-- Names do not contain what separates them in a marker. -/
theorem delimiter_not_mem {name : List Char} (h : NameText name) : Markers.delimiter ∉ name := by
  intro hmem
  have hspace := h _ hmem
  revert hspace
  decide

/-! ## Cursors -/

namespace Cursor

/-- The name of the attribute that is being read. -/
def name : Cursor → List Char
  | .attributeName name | .afterAttribute name | .beforeValue name | .unquoted name
  | .quoted _ name _ => name
  | _ => []

/-- Whether the reading stands outside tags, or in a tag that has not come to its attributes. -/
def isAhead : Cursor → Bool
  | .text | .opening | .bang | .bangDash | .comment _ => true
  | _ => false

/-- A `>` in a tag ends it. -/
theorem next_close {cursor : Cursor} (h : cursor.inTag = true) : cursor.next '>' = .text := by
  cases cursor with
  | text | quoted | comment => exact nomatch h
  | opening | bang | bangDash | beforeName | elementName | between | attributeName
  | afterAttribute | beforeValue | unquoted =>
      rw [next]
      rfl

theorem name_nextInName (c : Char) : (nextInName c).name = [] := by
  unfold nextInName
  split
  · rfl
  · split <;> rfl

theorem isAhead_nextInName {c : Char} (h : (nextInName c).isAhead = true) : c = '>' := by
  unfold nextInName at h
  split at h
  · assumption
  · split at h <;> exact nomatch h

theorem nameText_nextBetween (c : Char) : NameText (nextBetween c).name := by
  unfold nextBetween
  split
  · exact NameText.nil
  · split
    · exact NameText.nil
    · split
      · exact NameText.nil
      · rename_i hclose hblank hequals
        intro x hx
        rw [List.mem_singleton.mp hx]
        simp only [Bool.or_eq_true, decide_eq_true_eq, not_or] at hblank
        simp [Html.isAttributeNameChar, hclose, hblank, hequals]

theorem isAhead_nextBetween {c : Char} (h : (nextBetween c).isAhead = true) : c = '>' := by
  unfold nextBetween at h
  split at h
  · assumption
  · split at h
    · exact nomatch h
    · split at h <;> exact nomatch h

/-- What a cursor holds is the name of an attribute. -/
theorem nameText_next {cursor : Cursor} (h : NameText cursor.name) (c : Char) :
    NameText (cursor.next c).name := by
  cases cursor with
  | attributeName name =>
      rw [next]
      split
      · exact h
      · split
        · exact h
        · split
          · exact nameText_nextBetween c
          · rename_i hblank hequals hmarks
            simp only [Bool.or_eq_true, decide_eq_true_eq, not_or] at hmarks
            exact nameText_append h (by simp [Html.isAttributeNameChar, hblank, hequals, hmarks])
  | afterAttribute name =>
      rw [next]
      split
      · exact h
      · split
        · exact h
        · exact nameText_nextBetween c
  | between => exact nameText_nextBetween c
  | beforeValue name =>
      rw [next]
      repeat' split
      all_goals first | exact h | exact NameText.nil
  | unquoted name =>
      rw [next]
      repeat' split
      all_goals first | exact h | exact NameText.nil
  | quoted quote name carried =>
      rw [next]
      split
      · exact NameText.nil
      · exact h
  | elementName =>
      rw [next, name_nextInName]
      exact NameText.nil
  | text | opening | bang | bangDash | beforeName | comment =>
      rw [next]
      repeat' split
      all_goals first | exact NameText.nil | (rw [name_nextInName]; exact NameText.nil)

/-- A tag whose attributes have been come to stays so until it ends. -/
theorem isAhead_next {cursor : Cursor} {c : Char} (h : (cursor.next c).isAhead = true) :
    cursor.isAhead = true ∨ (cursor.inTag = true ∧ c = '>') := by
  cases cursor with
  | text | opening | bang | bangDash | comment => exact .inl rfl
  | elementName => exact .inr ⟨rfl, isAhead_nextInName h⟩
  | between => exact .inr ⟨rfl, isAhead_nextBetween h⟩
  | beforeName =>
      rw [next] at h
      split at h
      · exact nomatch h
      · exact .inr ⟨rfl, isAhead_nextInName h⟩
  | attributeName name =>
      rw [next] at h
      split at h
      · exact nomatch h
      · split at h
        · exact nomatch h
        · split at h
          · exact .inr ⟨rfl, isAhead_nextBetween h⟩
          · exact nomatch h
  | afterAttribute name =>
      rw [next] at h
      split at h
      · exact nomatch h
      · split at h
        · exact nomatch h
        · exact .inr ⟨rfl, isAhead_nextBetween h⟩
  | beforeValue name =>
      rw [next] at h
      split at h
      · exact nomatch h
      · split at h
        · exact nomatch h
        · split at h
          · exact .inr ⟨rfl, ‹_›⟩
          · exact nomatch h
  | unquoted name =>
      rw [next] at h
      split at h
      · exact nomatch h
      · split at h
        · exact .inr ⟨rfl, ‹_›⟩
        · exact nomatch h
  | quoted quote name carried =>
      rw [next] at h
      split at h <;> exact nomatch h

end Cursor

/-! ## Names of elements -/

/-- A character of the name of an element. -/
def isElementNameChar (c : Char) : Bool := !(isBlank c || c = '/' || c = '>')

namespace Cursor

variable {c : Char} {s : List Char}

/-- A character that ends the name of an element is read as behind the name. -/
theorem nextInName_eq_nextBetween (hc : isElementNameChar c = false) :
    nextInName c = nextBetween c := by
  unfold nextInName nextBetween
  split
  · rfl
  · next hopen =>
      have hmark : (isBlank c || c = '/') = true := by
        simpa only [isElementNameChar, hopen, decide_false, Bool.or_false, Bool.not_eq_false']
          using hc
      rw [if_pos hmark, if_pos hmark]

theorem nextInName_eq_elementName (hc : isElementNameChar c = true) :
    nextInName c = .elementName := by
  simp only [isElementNameChar, Bool.not_eq_true', Bool.or_eq_false_iff, decide_eq_false_iff_not]
    at hc
  simp [nextInName, hc]

theorem foldl_next_elementName (hs : ∀ c ∈ s, isElementNameChar c = true) :
    s.foldl next .elementName = .elementName := by
  induction s with
  | nil => rfl
  | cons c rest ih =>
      rw [List.foldl_cons, show elementName.next c = .elementName from
        nextInName_eq_elementName (hs c List.mem_cons_self)]
      exact ih fun b hb => hs b (List.mem_cons_of_mem c hb)

end Cursor

/-! ## Reading characters -/

namespace ScanProgress

variable {m : Markers} {p : ScanProgress} {c : Char}

/-- Whether a character ends a tag in which placeholders stand. -/
def closes (p : ScanProgress) (c : Char) : Bool :=
  c = '>' && p.cursor.inTag && !p.pending.isEmpty

theorem closes_eq_true_iff :
    p.closes c = true ↔ (c = '>' ∧ p.cursor.inTag = true) ∧ p.pending ≠ [] := by
  simp [closes]

/-- What has been written, last character first, with a note put at the end of a tag: in front of
a slash that ends it, and behind everything else. -/
def withNote (note : List Char) : List Char → List Char
  | '/' :: before => '/' :: (note.reverse ++ before)
  | before => note.reverse ++ before

theorem withNote_of_ne {note written : List Char} (h : ∀ before, written ≠ '/' :: before) :
    withNote note written = note.reverse ++ written := by
  unfold withNote
  split
  · exact absurd rfl (h _)
  · rfl

/-- The end of a tag with placeholders is written behind their note. -/
theorem read_of_closes (h : p.closes c = true) :
    p.read m c = ⟨⟨.text, []⟩, c :: withNote (m.note p.pending) p.written⟩ := if_pos h

/-- A character that does not end a tag with placeholders is written as it is. -/
theorem read_of_not_closes (h : p.closes c = false) :
    p.read m c = ⟨⟨p.cursor.next c, p.pending⟩, c :: p.written⟩ :=
  if_neg (Bool.eq_false_iff.mp h)

/-- The cursor moves on in the same way whatever is put in. -/
theorem cursor_read (m : Markers) (p : ScanProgress) (c : Char) :
    (p.read m c).cursor = p.cursor.next c := by
  by_cases h : p.closes c = true
  · obtain ⟨⟨rfl, htag⟩, -⟩ := closes_eq_true_iff.mp h
    rw [read_of_closes h, Cursor.next_close htag]
  · rw [read_of_not_closes (Bool.eq_false_iff.mpr h)]

theorem cursor_foldl_read (m : Markers) (p : ScanProgress) (s : List Char) :
    (s.foldl (read m) p).cursor = s.foldl Cursor.next p.cursor := by
  induction s generalizing p with
  | nil => rfl
  | cons c rest ih => rw [List.foldl_cons, List.foldl_cons, ih, cursor_read]

/-- The end of a tag leaves no placeholder waiting. -/
theorem pending_read_close (htag : p.cursor.inTag = true) : (p.read m '>').pending = [] := by
  by_cases hpending : p.pending = []
  · have h : p.closes '>' = false :=
      Bool.eq_false_iff.mpr fun h => (closes_eq_true_iff.mp h).2 hpending
    rw [read_of_not_closes h]
    exact hpending
  · rw [read_of_closes (closes_eq_true_iff.mpr ⟨⟨rfl, htag⟩, hpending⟩)]

/-- Reading puts no placeholder on the list. -/
theorem pending_read (m : Markers) (p : ScanProgress) (c : Char) :
    (p.read m c).pending = p.pending ∨ (p.read m c).pending = [] := by
  by_cases h : p.closes c = true
  · obtain ⟨⟨rfl, htag⟩, -⟩ := closes_eq_true_iff.mp h
    exact .inr (pending_read_close htag)
  · rw [read_of_not_closes (Bool.eq_false_iff.mpr h)]
    exact .inl rfl

end ScanProgress

/-! ## The state between characters -/

/-- What holds of a scan between any two characters: the names in it are names of attributes, and
placeholders wait only in a tag that has come to its attributes. -/
structure ScanState.Settled (state : ScanState) : Prop where
  cursor_name : NameText state.cursor.name
  pending_names : ∀ name ∈ state.pending, NameText name
  none_ahead : state.cursor.isAhead = true → state.pending = []

namespace ScanState.Settled

variable {m : Markers} {d : Dialect}

theorem start : ({} : ScanState).Settled := ⟨NameText.nil, nofun, fun _ => rfl⟩

theorem read {p : ScanProgress} (h : p.Settled) (c : Char) : (p.read m c).Settled where
  cursor_name := by
    rw [ScanProgress.cursor_read]
    exact Cursor.nameText_next h.cursor_name c
  pending_names := by
    intro name hname
    rcases ScanProgress.pending_read m p c with heq | heq
    · exact h.pending_names name (heq ▸ hname)
    · rw [heq] at hname
      exact nomatch hname
  none_ahead := by
    intro hahead
    rw [ScanProgress.cursor_read] at hahead
    rcases Cursor.isAhead_next hahead with hbefore | ⟨htag, rfl⟩
    · rcases ScanProgress.pending_read m p c with heq | heq
      · rw [heq, h.none_ahead hbefore]
      · exact heq
    · exact ScanProgress.pending_read_close htag

theorem foldl_read {p : ScanProgress} (h : p.Settled) (s : List Char) :
    (s.foldl (ScanProgress.read m) p).Settled := by
  induction s generalizing p with
  | nil => exact h
  | cons c rest ih => exact ih (h.read c)

end ScanState.Settled

end LiveTemplate
