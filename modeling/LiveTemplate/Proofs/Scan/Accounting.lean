import LiveTemplate.Proofs.Scan.Cursors
import Mathlib.Data.List.Induction

/-!
# Every placeholder leaves one mark

A scan puts three kinds of text into the fragments it reads: the note of a tag, which lists the
names of its placeholders, an empty value where a placeholder is the whole value of an attribute,
and a marker element for a placeholder in text.  Nothing is taken away or moved: `Marked` says how a
fragment is marked, and `MarkedAll` how a list of fragments is.

The placeholders of a list of fragments are found by moving a cursor over it: `placeholders` lists
the name that each of them puts on the list of its tag, or none if it stands in text.
`scan_marks_placeholders` says that the marks of a scan that succeeds, read one after another, are
these placeholders.
-/

namespace LiveTemplate

set_option autoImplicit false

/-! ## What is put in -/

/-- A text that the scanner puts into a fragment. -/
inductive Insertion
  /-- The marker attribute of a tag in which placeholders stand. -/
  | note (value : List Char)
  /-- The value of an attribute that has none but a placeholder. -/
  | emptyValue
  /-- The marker element of a placeholder in text. -/
  | element
  deriving DecidableEq, Repr

namespace Insertion

/-- The text that is put in. -/
def text (m : Markers) (d : Dialect) : Insertion → List Char
  | .note value => ' ' :: m.attributes.toList ++ ['=', '"'] ++ value ++ ['"']
  | .emptyValue => ['"', '"']
  | .element => m.element d

/-- The placeholders that an insertion marks: the names that the value of a note is cut into at
every delimiter, and one without a name for an element. -/
def placeholders : Insertion → List (Option (List Char))
  | .note value => (Markers.split value).map some
  | .emptyValue => []
  | .element => [none]

end Insertion

/-- The text `t` is `s` with notes at the ends of tags, when `s` is read from the cursor `start` on:
in front of the `>`, or of a slash directly in front of that. -/
inductive Noted (m : Markers) (d : Dialect) (start : Cursor) :
    List Char → List Char → List Insertion → Prop
  | nil : Noted m d start [] [] []
  | keep {s t : List Char} {notes : List Insertion} (c : Char) (kept : Noted m d start s t notes) :
      Noted m d start (s ++ [c]) (t ++ [c]) notes
  | tagEnd {s t : List Char} {notes : List Insertion} (value : List Char)
      (kept : Noted m d start s t notes) (tag : (s.foldl Cursor.next start).inTag = true) :
      Noted m d start (s ++ ['>']) (t ++ Insertion.text m d (.note value) ++ ['>'])
        (notes ++ [.note value])
  | slashTagEnd {s t : List Char} {notes : List Insertion} (value : List Char)
      (kept : Noted m d start s t notes)
      (tag : ((s ++ ['/']).foldl Cursor.next start).inTag = true) :
      Noted m d start (s ++ ['/'] ++ ['>'])
        (t ++ Insertion.text m d (.note value) ++ ['/'] ++ ['>']) (notes ++ [.note value])

/-- The text `t` is the fragment `s` with notes at the ends of tags, and with an empty value or one
marker element at its own end if anything stands there. -/
def Marked (m : Markers) (d : Dialect) (start : Cursor) (s t : List Char)
    (insertions : List Insertion) : Prop :=
  ∃ body notes tail, Noted m d start s body notes ∧ tail ∈ [[], [.emptyValue], [.element]] ∧
    t = body ++ tail.flatMap (Insertion.text m d) ∧ insertions = notes ++ tail

/-- The texts are the fragments with what was put in, each read from where the placeholder in front
of it left the cursor. -/
inductive MarkedAll (m : Markers) (d : Dialect) :
    Cursor → List (List Char) → List (List Char) → List Insertion → Prop
  | nil (start : Cursor) : MarkedAll m d start [] [] []
  | cons {start : Cursor} {s t : List Char} {rest others : List (List Char)}
      {insertions more : List Insertion} (first : Marked m d start s t insertions)
      (later : MarkedAll m d ((s.foldl Cursor.next start).cut m d).cursor rest others more) :
      MarkedAll m d start (s :: rest) (t :: others) (insertions ++ more)

/-- The placeholders of fragments that are read from a cursor on: for each of them the name that it
puts on the list of its tag, and none for one in text. -/
def placeholders (m : Markers) (d : Dialect) : Cursor → List (List Char) →
    List (Option (List Char))
  | _, [] | _, [_] => []
  | start, s :: next :: rest =>
    let cut := (s.foldl Cursor.next start).cut m d
    cut.queued :: placeholders m d cut.cursor (next :: rest)

theorem length_placeholders (m : Markers) (d : Dialect) (start : Cursor)
    (fragments : List (List Char)) :
    (placeholders m d start fragments).length = fragments.length - 1 := by
  induction fragments generalizing start with
  | nil => rfl
  | cons s rest ih =>
      cases rest with
      | nil => rfl
      | cons next rest =>
          rw [placeholders, List.length_cons, ih]
          rfl

/-! ## Notes -/

namespace Noted

variable {m : Markers} {d : Dialect} {start : Cursor} {s t : List Char} {notes : List Insertion}

/-- A slash at the end of the text is the end of the fragment. -/
theorem of_slash {before : List Char} (h : Noted m d start s t notes) (ht : t = before ++ ['/']) :
    ∃ front, s = front ++ ['/'] ∧ Noted m d start front before notes := by
  cases h with
  | nil => exact absurd ht (by simp)
  | keep c kept =>
      obtain ⟨rfl, hc⟩ := List.append_inj' ht rfl
      obtain rfl : c = '/' := by simpa using hc
      exact ⟨_, rfl, kept⟩
  | tagEnd value kept tag => exact absurd (List.append_inj' ht rfl).2 (by decide)
  | slashTagEnd value kept tag => exact absurd (List.append_inj' ht rfl).2 (by decide)

/-- What a note lists is read off its value again. -/
theorem placeholders_note {names : List (List Char)} (hne : names ≠ [])
    (hnames : ∀ name ∈ names, NameText name) :
    Insertion.placeholders (.note (Markers.join names)) = names.map some := by
  show (Markers.split (Markers.join names)).map some = _
  rw [Markers.split_join hne fun name hname => delimiter_not_mem (hnames name hname)]

/-- A note is put at the end of a tag. -/
theorem withNote {names : List (List Char)} {written : List Char}
    (h : Noted m d start s written.reverse notes)
    (htag : (s.foldl Cursor.next start).inTag = true) :
    Noted m d start (s ++ ['>']) ('>' :: ScanProgress.withNote (m.note names) written).reverse
      (notes ++ [.note (Markers.join names)]) := by
  unfold ScanProgress.withNote
  split
  · rename_i before
    rw [List.reverse_cons] at h
    obtain ⟨front, rfl, hfront⟩ := h.of_slash rfl
    have hnoted := hfront.slashTagEnd (Markers.join names) htag
    rw [List.reverse_cons, List.reverse_cons, List.reverse_append, List.reverse_reverse]
    exact hnoted
  · have hnoted := h.tagEnd (Markers.join names) htag
    rw [List.reverse_cons, List.reverse_append, List.reverse_reverse]
    exact hnoted

end Noted

/-! ## One fragment -/

namespace ScanProgress

variable {m : Markers} {d : Dialect}

/-- Reading a fragment notes the placeholders that wait, or keeps them waiting.  A note may go in
front of the last character that is read. -/
theorem noted_foldl_read (d : Dialect) {p : ScanProgress} (hp : p.Settled)
    (hwritten : p.written = []) (s : List Char) :
    ∃ notes, Noted m d p.cursor s (s.foldl (read m) p).written.reverse notes ∧
      notes.flatMap Insertion.placeholders ++ (s.foldl (read m) p).pending.map some
        = p.pending.map some := by
  induction s using List.reverseRecOn with
  | nil =>
      refine ⟨[], ?_, rfl⟩
      rw [List.foldl_nil, hwritten]
      exact .nil
  | append_singleton s c ih =>
      obtain ⟨notes, hnoted, hsame⟩ := ih
      have hsettled := hp.foldl_read (m := m) s
      have hcursor := cursor_foldl_read m p s
      rw [List.foldl_append, List.foldl_cons, List.foldl_nil]
      generalize s.foldl (read m) p = q at hnoted hsame hsettled hcursor
      by_cases hcloses : q.closes c = true
      · obtain ⟨⟨rfl, htag⟩, hpending⟩ := closes_eq_true_iff.mp hcloses
        rw [hcursor] at htag
        refine ⟨notes ++ [.note (Markers.join q.pending)], ?_, ?_⟩
        · rw [read_of_closes hcloses]
          exact hnoted.withNote htag
        · rw [read_of_closes hcloses, List.flatMap_append, List.flatMap_singleton,
            Noted.placeholders_note hpending hsettled.pending_names, ← hsame]
          exact List.append_nil _
      · rw [read_of_not_closes (Bool.eq_false_iff.mpr hcloses)]
        refine ⟨notes, ?_, hsame⟩
        rw [List.reverse_cons]
        exact hnoted.keep c

/-- The last fragment ends well in text only, and then it is written as it was read. -/
theorem finish_last {p : ScanProgress} {index : Nat} {t : List Char} {state : ScanState}
    (h : p.finish m d index true = (.ok t, state)) :
    p.cursor = .text ∧ t = p.written.reverse ∧ state = p.toScanState := by
  unfold finish at h
  split at h
  · exact nomatch h
  · rename_i hcursor
    cases h
    exact ⟨hcursor, rfl, rfl⟩
  · exact nomatch h

/-- Any other fragment ends well outside comments, and leaves what the cut behind it says. -/
theorem finish_cut {p : ScanProgress} {index : Nat} {t : List Char} {state : ScanState}
    (h : p.finish m d index false = (.ok t, state)) :
    (∀ dashes, p.cursor ≠ .comment dashes) ∧ t = p.written.reverse ++ (p.cursor.cut m d).appended ∧
      state = ⟨(p.cursor.cut m d).cursor, p.pending ++ (p.cursor.cut m d).queued.toList⟩ := by
  unfold finish at h
  split at h
  · exact nomatch h
  · rename_i hcursor
    cases h
    refine ⟨by rw [hcursor]; exact fun _ => nofun, rfl, ?_⟩
    rw [hcursor]
    show p.toScanState = ⟨.text, p.pending ++ []⟩
    rw [List.append_nil, ← hcursor]
  · rename_i hcomment htext
    cases h
    exact ⟨hcomment, rfl, rfl⟩

end ScanProgress

/-- The state behind a cut is settled again. -/
theorem ScanState.Settled.cut {m : Markers} {d : Dialect} {p : ScanProgress} (h : p.Settled)
    (hcomment : ∀ dashes, p.cursor ≠ .comment dashes) :
    ScanState.Settled
      ⟨(p.cursor.cut m d).cursor, p.pending ++ (p.cursor.cut m d).queued.toList⟩ := by
  have hname := nameText_spellName d h.cursor_name
  have hpending : ∀ queued : List Char, NameText queued → ∀ name ∈ p.pending ++ [queued],
      NameText name := by
    intro queued hqueued name hmem
    rcases List.mem_append.mp hmem with hmem | hmem
    · exact h.pending_names name hmem
    · exact List.mem_singleton.mp hmem ▸ hqueued
  cases hcursor : p.cursor with
  | text =>
      refine ⟨NameText.nil, ?_, fun _ => ?_⟩
      · intro name hmem
        exact h.pending_names name (by simpa [Cursor.cut] using hmem)
      · simpa [Cursor.cut] using h.none_ahead (by rw [hcursor]; rfl)
  | comment dashes => exact absurd hcursor (hcomment dashes)
  | beforeValue name =>
      rw [hcursor] at hname
      exact ⟨NameText.nil, hpending _ hname, nofun⟩
  | unquoted name =>
      rw [hcursor] at hname
      exact ⟨NameText.nil, hpending _ hname, nofun⟩
  | quoted quote name carried =>
      rw [hcursor] at hname
      exact ⟨hname, hpending _ hname, nofun⟩
  | opening | bang | bangDash | beforeName | elementName | between | attributeName
  | afterAttribute => exact ⟨NameText.nil, hpending _ NameText.nil, nofun⟩

/-- What a cut appends is an empty value, a marker element or nothing; the element is the mark of
its placeholder. -/
theorem Cursor.exists_tail (m : Markers) (d : Dialect) (cursor : Cursor) :
    ∃ tail ∈ [[], [Insertion.emptyValue], [.element]],
      (cursor.cut m d).appended = tail.flatMap (Insertion.text m d) ∧
      tail.flatMap Insertion.placeholders ++ (cursor.cut m d).queued.toList.map some
        = [(cursor.cut m d).queued] := by
  cases cursor with
  | text => exact ⟨[.element], by simp, by simp [cut, Insertion.text], rfl⟩
  | beforeValue name => exact ⟨[.emptyValue], by simp, rfl, rfl⟩
  | opening | bang | bangDash | beforeName | elementName | between | attributeName
  | afterAttribute | unquoted | quoted | comment => exact ⟨[], by simp, rfl, rfl⟩

/-- The mark of a placeholder comes behind those of the ones that wait: in text none waits. -/
theorem ScanState.Settled.tail_pending {m : Markers} {d : Dialect} {p : ScanProgress}
    {tail : List Insertion} (h : p.Settled)
    (hmarks : tail.flatMap Insertion.placeholders ++ (p.cursor.cut m d).queued.toList.map some
      = [(p.cursor.cut m d).queued]) :
    tail.flatMap Insertion.placeholders
        ++ (p.pending ++ (p.cursor.cut m d).queued.toList).map some
      = p.pending.map some ++ [(p.cursor.cut m d).queued] := by
  cases hqueued : (p.cursor.cut m d).queued with
  | none =>
      have htext : p.cursor.isAhead = true := by
        cases hcursor : p.cursor <;> rw [hcursor] at hqueued <;> first | rfl | exact nomatch hqueued
      rw [hqueued] at hmarks
      rw [h.none_ahead htext]
      exact hmarks
  | some name =>
      rw [hqueued] at hmarks
      have hnil : tail.flatMap Insertion.placeholders = [] :=
        List.append_left_eq_self.mp hmarks
      rw [hnil, List.map_append]
      rfl

/-! ## All fragments -/

/-- Scanning fragments from a settled state marks the placeholders that wait and those between the
fragments, in order. -/
theorem marked_scanFrom {m : Markers} {d : Dialect} {state last : ScanState} {index : Nat}
    {fragments written : List (List Char)} (hstate : state.Settled) (hne : fragments ≠ [])
    (h : scanFrom m d state index fragments = (.ok written, last)) :
    last = {} ∧ written.length = fragments.length ∧
      ∃ insertions, MarkedAll m d state.cursor fragments written insertions ∧
        insertions.flatMap Insertion.placeholders
          = state.pending.map some ++ placeholders m d state.cursor fragments := by
  induction fragments generalizing state index written with
  | nil => exact absurd rfl hne
  | cons s rest ih =>
      rw [scanFrom] at h
      have hp : ScanState.Settled (⟨state, []⟩ : ScanProgress).toScanState := hstate
      obtain ⟨notes, hnoted, hsame⟩ :=
        ScanProgress.noted_foldl_read (m := m) d (p := ⟨state, []⟩) hp rfl s
      have hsettled := hp.foldl_read (m := m) s
      have hcursor := ScanProgress.cursor_foldl_read m ⟨state, []⟩ s
      unfold scanFragment at h
      generalize s.foldl (ScanProgress.read m) ⟨state, []⟩ = p at *
      cases hfinish : p.finish m d index rest.isEmpty with
      | mk result behind =>
          rw [hfinish] at h
          cases result with
          | error e => exact nomatch h
          | ok t =>
              cases rest with
              | nil =>
                  obtain ⟨htext, rfl, rfl⟩ := ScanProgress.finish_last hfinish
                  cases h
                  have hnone := hsettled.none_ahead (by rw [htext]; rfl)
                  rw [hnone] at hsame
                  refine ⟨?_, rfl, (notes ++ []) ++ [], .cons ?_ (.nil _), ?_⟩
                  · show (⟨p.cursor, p.pending⟩ : ScanState) = _
                    rw [htext, hnone]
                  · exact ⟨_, notes, [], hnoted, by simp, by simp, by simp⟩
                  · show (notes ++ [] ++ []).flatMap Insertion.placeholders
                      = state.pending.map some ++ []
                    rw [List.append_nil, List.append_nil, List.append_nil]
                    exact (List.append_nil _).symm.trans hsame
              | cons next rest =>
                  obtain ⟨hcomment, rfl, rfl⟩ := ScanProgress.finish_cut hfinish
                  dsimp only at h
                  cases hlater : scanFrom m d
                      ⟨(p.cursor.cut m d).cursor, p.pending ++ (p.cursor.cut m d).queued.toList⟩
                      (index + 1) (next :: rest) with
                  | mk laterResult final =>
                      rw [hlater] at h
                      cases laterResult with
                      | error e => exact nomatch h
                      | ok others =>
                          cases h
                          obtain ⟨hfinal, hlength, more, hmarked, hmore⟩ :=
                            ih (hsettled.cut hcomment) (by simp) hlater
                          obtain ⟨tail, htail, happended, hmarks⟩ :=
                            p.cursor.exists_tail m d
                          refine ⟨hfinal, by rw [List.length_cons, hlength]; rfl,
                            (notes ++ tail) ++ more, .cons ?_ ?_, ?_⟩
                          · exact ⟨_, notes, tail, hnoted, htail, by rw [happended], rfl⟩
                          · rw [← hcursor]
                            exact hmarked
                          · rw [List.flatMap_append, List.flatMap_append, hmore, placeholders,
                              ← hcursor, List.append_assoc, ← List.append_assoc (tail.flatMap _),
                              hsettled.tail_pending hmarks, ← hsame, List.append_assoc,
                              List.append_assoc]
                            rfl

/-- A scanner gives what a scan from the start gives, whatever it has scanned before. -/
theorem Scanner.scan_eq (x : Scanner) (fragments : List String) :
    x.scan fragments = ((LiveTemplate.scan x.markers x.dialect fragments).1,
      { x with state := (LiveTemplate.scan x.markers x.dialect fragments).2 }) := by
  unfold Scanner.scan LiveTemplate.scan
  dsimp only [Scanner.reset]
  cases scanFrom x.markers x.dialect {} 0 (fragments.map String.toList) with
  | mk result last => cases result <;> rfl

/-- A scan that succeeds gives back as many fragments as it was given, ends in text with no
placeholder waiting, and has only put in marks.  Reading the marks one after another gives the
placeholders in order, one between each two fragments. -/
theorem scan_marks_placeholders (x : Scanner) {fragments written : List String}
    (hne : fragments ≠ []) (h : (x.scan fragments).1 = .ok written) :
    written.length = fragments.length ∧ (x.scan fragments).2.state = ⟨.text, []⟩ ∧
      ∃ insertions,
        MarkedAll x.markers x.dialect .text (fragments.map String.toList)
          (written.map String.toList) insertions ∧
        insertions.flatMap Insertion.placeholders
          = placeholders x.markers x.dialect .text (fragments.map String.toList) ∧
        (insertions.flatMap Insertion.placeholders).length = fragments.length - 1 := by
  rw [Scanner.scan_eq] at h ⊢
  unfold LiveTemplate.scan at h ⊢
  cases hscan : scanFrom x.markers x.dialect {} 0 (fragments.map String.toList) with
  | mk result last =>
      rw [hscan] at h
      cases result with
      | error e => exact nomatch h
      | ok texts =>
          cases h
          obtain ⟨hlast, hlength, insertions, hmarked, hmarks⟩ :=
            marked_scanFrom ScanState.Settled.start (by simpa using hne) hscan
          have hback : (texts.map String.ofList).map String.toList = texts := by
            rw [List.map_map]
            exact (List.map_congr_left fun t _ => String.toList_ofList).trans (List.map_id _)
          refine ⟨by simpa using hlength, hlast, insertions, ?_, hmarks, ?_⟩
          · rw [hback]
            exact hmarked
          · rw [hmarks]
            show (placeholders _ _ _ _).length = _
            rw [length_placeholders, List.length_map]

/-- A tag with a name, no name and a whole value to fill, and two placeholders in text, read by a
scanner that has failed in the middle of another tag. -/
theorem scan_marks_placeholders_leftover :
    ∃ written : List String, written.length = 6 ∧ ∃ insertions,
      MarkedAll {} .html .text
        (["<a href=\"", "\" ", " title=", ">", " and ", "</a>"].map String.toList)
        (written.map String.toList) insertions ∧
      insertions.flatMap Insertion.placeholders
        = [some "href".toList, some [], some "title".toList, none, none] := by
  let x : Scanner := { state := ⟨.between, ["class".toList]⟩ }
  let fragments := ["<a href=\"", "\" ", " title=", ">", " and ", "</a>"]
  have h : ∃ written, (x.scan fragments).1 = .ok written := ⟨_, rfl⟩
  obtain ⟨written, h⟩ := h
  obtain ⟨hlength, -, insertions, hmarked, hmarks, -⟩ :=
    scan_marks_placeholders x (by decide) h
  exact ⟨written, hlength, insertions, hmarked, hmarks.trans (by decide +kernel)⟩

end LiveTemplate
