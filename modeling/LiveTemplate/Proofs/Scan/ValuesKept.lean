import LiveTemplate.Proofs.Scan.Values

/-!
# When a note keeps the values of its tag

The reading of what a scan has written follows the reading of the fragments (`Follows`): inside a
tag both are the same, and a note is read up to the end of its tag.  So the values of a tag can be
told from what stands in front of its end, and they are kept unless a value is awaited there or a
slash ends an unquoted one: `values_kept_iff`.
-/

namespace LiveTemplate

set_option autoImplicit false

open Text

variable {m : Markers} {d : Dialect}

/-! ## Reading what is written -/

/-- The reading of what a scan has written follows the reading of the text: the two agree, and if
the last character is a slash they agree in front of it too, since a note may still go there. -/
structure Follows (start r : TagReading) (p : ScanProgress) : Prop where
  settled : p.Settled
  waits : p.Waits
  cursor : p.cursor = r.cursor
  agrees : r.Agrees (p.written.reverse.foldl TagReading.read start)
  before_slash : ∀ before, p.written = '/' :: before → ∃ r₀ : TagReading,
    r = r₀.read '/' ∧ r₀.Agrees (before.reverse.foldl TagReading.read start) ∧
    r₀.cursor.Quotes ∧ (p.pending ≠ [] → r₀.cursor.InAttributes)

/-- The element that stands for a placeholder in text is read from text to text. -/
theorem foldl_next_element (hm : m.Legible) (d : Dialect) :
    (m.element d).foldl Cursor.next .text = .text := by
  have hname : m.nodes.toList.foldl Cursor.next .between = .between ∨
      ∃ name, m.nodes.toList.foldl Cursor.next .between = .attributeName name := by
    have hchars := hm.nodes
    cases hnodes : m.nodes.toList with
    | nil => exact .inl rfl
    | cons c rest =>
        rw [hnodes] at hchars
        have hstarts : Plain.StartsWord .between := trivial
        rw [List.foldl_cons, hstarts.next_name (hchars c (List.mem_cons_self ..)),
          Plain.foldl_next_attributeName _ fun x hx => hchars x (List.mem_cons_of_mem c hx)]
        exact .inr ⟨_, rfl⟩
  obtain ⟨front, behind, helement, hfront, hbehind⟩ : ∃ front behind : List Char,
      m.element d = front ++ m.nodes.toList ++ behind ∧
      front.foldl Cursor.next .text = .between ∧
      behind.foldl Cursor.next .between = .text ∧
      ∀ name, behind.foldl Cursor.next (.attributeName name) = .text := by
    cases d with
    | html =>
        exact ⟨"<span ".toList, "=\"\"></span>".toList, by simp [Markers.element], by decide,
          by decide, fun name => rfl⟩
    | svg =>
        exact ⟨"<g ".toList, "=\"\"></g>".toList, by simp [Markers.element], by decide,
          by decide, fun name => rfl⟩
  rw [helement, List.foldl_append, List.foldl_append, hfront]
  rcases hname with hname | ⟨name, hname⟩
  · rw [hname, hbehind.1]
  · rw [hname, hbehind.2]

namespace Follows

open TagReading

variable {start r : TagReading} {p : ScanProgress}

/-- A fragment begins where the one before has left the reading. -/
theorem begin {state : ScanState} (hsettled : state.Settled) (hwaits : state.Waits)
    (hcursor : state.cursor = r.cursor) (hagrees : r.Agrees start) :
    Follows start r { toScanState := state } where
  settled := hsettled
  waits := hwaits
  cursor := hcursor
  agrees := hagrees
  before_slash before h := nomatch (show ([] : List Char) = '/' :: before from h)

/-- Where a note is put in, the readings are the same, and behind it goes at most a slash. -/
theorem exists_insertion (h : Follows start r p) (hcloses : p.closes '>' = true) :
    ∃ (r₀ : TagReading) (slash : List Char), (slash = [] ∨ slash = ['/']) ∧
      (slash = ['/'] ↔ p.written.head? = some '/') ∧
      r₀.cursor.amongAttributes = true ∧ r = slash.foldl read r₀ ∧
      (p.read m '>').written.reverse.foldl read start
        = (slash.foldl read ((m.note p.pending).foldl read r₀)).read '>' := by
  obtain ⟨⟨-, htag⟩, hpending⟩ := ScanProgress.closes_eq_true_iff.mp hcloses
  rw [ScanProgress.read_of_closes hcloses]
  by_cases hslash : ∃ before, p.written = '/' :: before
  · obtain ⟨before, hbefore⟩ := hslash
    obtain ⟨r₀, rfl, hagrees, hquotes, hwaits⟩ := h.before_slash before hbefore
    have hamong : r₀.cursor.amongAttributes = true := by
      rcases hwaits hpending with hamong | hquoted
      · exact hamong
      · cases hcursor : r₀.cursor with
        | quoted quote name carried =>
            have hne : '/' ≠ quote := by
              rcases hquotes quote name carried hcursor with rfl | rfl <;> decide
            have hnext : p.cursor = .quoted quote name carried := by
              rw [h.cursor]
              show r₀.cursor.next '/' = _
              rw [hcursor]
              exact if_neg hne
            rw [hnext] at htag
            cases htag
        | text | opening | bang | bangDash | beforeName | elementName | between | attributeName
        | afterAttribute | beforeValue | unquoted | comment =>
            rw [hcursor] at hquoted
            cases hquoted
    refine ⟨r₀, ['/'], .inr rfl, by simp [hbefore], hamong, rfl, ?_⟩
    rw [hbefore]
    simp [ScanProgress.withNote, hagrees.eq_of_ne (Cursor.InAttributes.ne_text (.inl hamong))]
  · rw [not_exists] at hslash
    have hamong : r.cursor.amongAttributes = true := by
      rw [← h.cursor]
      refine (h.waits.among hpending).resolve_right fun hquoted => ?_
      rw [Cursor.inTag_of_isQuoted hquoted] at htag
      cases htag
    have hhead : ¬ p.written.head? = some '/' := fun hhead => by
      obtain ⟨before, hbefore⟩ := List.head?_eq_some_iff.mp hhead
      exact hslash before hbefore
    refine ⟨r, [], .inl rfl, by simp [hhead], hamong, rfl, ?_⟩
    rw [ScanProgress.withNote_of_ne hslash, ← h.agrees.eq_of_ne
      (Cursor.InAttributes.ne_text (.inl hamong))]
    simp

/-- One more character. -/
theorem read (hm : m.Legible) (h : Follows start r p) (c : Char) :
    Follows start (r.read c) (p.read m c) where
  settled := h.settled.read c
  waits := h.waits.read c
  cursor := by
    rw [ScanProgress.cursor_read, h.cursor]
    rfl
  agrees := by
    by_cases hcloses : p.closes c = true
    · obtain ⟨⟨rfl, htag⟩, -⟩ := ScanProgress.closes_eq_true_iff.mp hcloses
      obtain ⟨r₀, slash, hslash, -, hamong, -, hread⟩ := h.exists_insertion (m := m) hcloses
      refine .inr ⟨Cursor.next_close (h.cursor ▸ htag), ?_⟩
      have hnote := amongAttributes_note hm h.settled.pending_names hamong
      have hlast : (slash.foldl TagReading.read
          ((m.note p.pending).foldl TagReading.read r₀)).cursor.amongAttributes = true := by
        rcases hslash with rfl | rfl
        · exact hnote
        · rcases Cursor.next_slash hnote with ⟨-, hnext⟩ | ⟨name, -, hnext⟩
          · exact congrArg Cursor.amongAttributes hnext
          · exact congrArg Cursor.amongAttributes hnext
      rw [hread]
      exact Cursor.next_close (Cursor.inTag_of_amongAttributes hlast)
    · rw [ScanProgress.read_of_not_closes (Bool.eq_false_iff.mpr hcloses), List.reverse_cons,
        List.foldl_append]
      exact h.agrees.read c
  before_slash before hbefore := by
    have hhead := ScanProgress.head?_read m p c
    rw [hbefore] at hhead
    obtain rfl : '/' = c := Option.some.inj hhead
    have hopen : p.closes '/' = false := by
      rw [ScanProgress.closes]
      rfl
    rw [ScanProgress.read_of_not_closes hopen] at hbefore ⊢
    obtain rfl : p.written = before := (List.cons.inj hbefore).2
    exact ⟨r, rfl, h.agrees, h.cursor ▸ h.waits.quotes,
      fun hpending => h.cursor ▸ h.waits.among hpending⟩

theorem foldl_read (hm : m.Legible) (h : Follows start r p) (s : List Char) :
    Follows start (s.foldl TagReading.read r) (s.foldl (ScanProgress.read m) p) := by
  induction s generalizing r p with
  | nil => exact h
  | cons c rest ih => exact ih (h.read hm c)

/-- Behind the placeholder too the readings agree. -/
theorem cut (hm : m.Legible) (h : Follows start r p) :
    (r.past m d).Agrees
      (((p.written.reverse ++ (p.cursor.cut m d).appended).foldl TagReading.read start).past
        m d) := by
  have hagrees := h.agrees
  rw [List.foldl_append]
  generalize p.written.reverse.foldl TagReading.read start = q at hagrees
  rw [h.cursor]
  cases hcursor : r.cursor with
  | text =>
      have htext : ((m.element d).foldl TagReading.read q).cursor = .text := by
        rw [cursor_foldl_read, hagrees.cursor_eq, hcursor, foldl_next_element hm]
      refine .inr ⟨?_, ?_⟩
      · show (r.cursor.cut m d).cursor = _
        rw [hcursor]
        rfl
      · show (((m.element d).foldl TagReading.read q).cursor.cut m d).cursor = _
        rw [htext]
        rfl
  | beforeValue name =>
      have hne : r.cursor ≠ .text := fun htext => by cases hcursor.symm.trans htext
      obtain rfl := hagrees.eq_of_ne hne
      obtain ⟨cursor, value, values⟩ := q
      obtain rfl : cursor = .beforeValue name := hcursor
      refine .inl ?_
      simp [TagReading.past, TagReading.read, valueBehind, ended, Cursor.next, Cursor.cut, isBlank]
  | opening | bang | bangDash | beforeName | elementName | between | attributeName
  | afterAttribute | unquoted | quoted | comment =>
      have hne : r.cursor ≠ .text := fun htext => by cases hcursor.symm.trans htext
      obtain rfl := hagrees.eq_of_ne hne
      exact .inl rfl

end Follows

section Fragments

variable {state : ScanState} {r r' : TagReading} {fragments written : List (List Char)}
  {s : List Char} {start index k : Nat}

theorem readingFrom_eq (hs : fragments[index]? = some s) (k : Nat) :
    readingFrom m d r fragments index k
      = (s.take k).foldl TagReading.read (readingFrom m d r fragments index 0) := by
  induction fragments generalizing r index with
  | nil => exact nomatch hs
  | cons first rest ih =>
      cases index with
      | zero =>
          obtain rfl : first = s := Option.some.inj hs
          rfl
      | succ index => exact ih hs

theorem readingFrom_succ {c : Char} (hs : fragments[index]? = some s) (hc : s[k]? = some c) :
    readingFrom m d r fragments index (k + 1) = (readingFrom m d r fragments index k).read c := by
  rw [readingFrom_eq hs, readingFrom_eq hs k, List.take_add_one, hc, List.foldl_append]
  rfl

/-- What a scan that succeeds has written is read as the fragments are. -/
theorem follows_progressFrom (hm : m.Legible)
    (h : (scanFrom m d state start fragments).1 = .ok written) (hsettled : state.Settled)
    (hwaits : state.Waits) (hcursor : state.cursor = r.cursor) (hagrees : r.Agrees r')
    (hs : fragments[index]? = some s) (k : Nat) :
    Follows (readingFrom m d r' (markedFrom m d state fragments) index 0)
      (readingFrom m d r fragments index k) (progressFrom m d state fragments index k) := by
  have hbegin := Follows.begin hsettled hwaits hcursor hagrees
  induction fragments generalizing state r r' start written index with
  | nil => exact nomatch hs
  | cons first rest ih =>
      cases index with
      | zero =>
          have hread := hbegin.foldl_read hm (first.take k)
          cases rest <;> exact hread
      | succ index =>
          cases rest with
          | nil => exact nomatch hs
          | cons next rest =>
              have houtside := outside_of_scanFrom h
              rw [endFrom_zero] at houtside
              obtain ⟨others, hlater, -⟩ := exists_of_scanFrom_cons h
              have hend := hbegin.foldl_read hm first
              have hpast := hend.settled.cut (m := m) (d := d) fun dashes hcomment =>
                houtside (Cursor.region_eq_comment_iff.mpr ⟨dashes, hcomment⟩)
              have hnext : (state.past m d first).cursor
                  = ((first.foldl TagReading.read r).past m d).cursor :=
                congrArg (fun x : Cursor => (x.cut m d).cursor) hend.cursor
              exact ih hlater hpast (hend.waits.cut houtside) hnext (hend.cut hm) hs
                (.begin hpast (hend.waits.cut houtside) hnext (hend.cut hm))

end Fragments

/-- In front of the end of a tag, a note leaves the values of the tag alone: none is awaited, and a
slash that was read last is not the end of one. -/
structure ScanProgress.SparesValues (p : ScanProgress) : Prop where
  none_awaited : ∀ name, p.cursor ≠ .beforeValue name
  slash_apart : p.written.head? = some '/' → ∀ name, p.cursor ≠ .unquoted name

/-- A marked fragment begins with what has been written up to the end of a tag with placeholders.
Read in the same way as the fragments, the tag has there the values that it has in the fragments,
and behind them that of its note, if the note leaves them alone.  Else it has others. -/
theorem values_kept_iff (hm : m.Legible) {fragments written : List String}
    (hscan : (scan m d fragments).1 = .ok written) {index k : Nat}
    (hnote : NotedAt m d {} (fragments.map String.toList) index k) :
    (∃ behind, (written.map String.toList)[index]?
      = some ((progressFrom m d {} (fragments.map String.toList) index (k + 1)).written.reverse
        ++ behind)) ∧
    ((readingFrom m d {} (written.map String.toList) index
          (progressFrom m d {} (fragments.map String.toList) index (k + 1)).written.length).values
        = (readingFrom m d {} (fragments.map String.toList) index (k + 1)).values
          ++ [(m.attributes.toList, (Markers.join (progressFrom m d {}
            (fragments.map String.toList) index k).pending).takeWhile (· != '"'))] ↔
      (progressFrom m d {} (fragments.map String.toList) index k).SparesValues) := by
  have htexts := scan_ok hscan
  obtain ⟨behind, hbehind⟩ := exists_behind htexts hnote
  refine ⟨⟨behind, hbehind⟩, ?_⟩
  obtain ⟨s, hs, hc⟩ := hnote.here
  have hfollows : Follows (readingFrom m d {} (markedFrom m d {} _) index 0)
      (readingFrom m d {} _ index k) (progressFrom m d {} _ index k) :=
    follows_progressFrom hm htexts .start .start rfl (.inl rfl) hs k
  have hcloses := hnote.closes
  rw [readingFrom_eq hbehind, ← List.length_reverse, List.take_left, readingFrom_succ hs hc,
    progressFrom_succ hs hc, written_of_scanFrom htexts]
  generalize progressFrom m d {} (fragments.map String.toList) index k = p at hfollows hcloses ⊢
  have hcursor := hfollows.cursor
  obtain ⟨r₀, slash, hslash, hhead, hamong, hr, hread⟩ := hfollows.exists_insertion (m := m) hcloses
  have hnames := hfollows.settled.pending_names
  rw [hr] at hcursor ⊢
  rw [hread]
  constructor
  · intro heq
    by_contra hspares
    refine TagReading.values_note_lost hm hnames hamong hslash ?_ _ heq
    by_contra hnone
    rw [not_or, not_exists, not_and, not_exists, ← hcursor] at hnone
    exact hspares ⟨hnone.1, fun hlast => hnone.2 (hhead.mpr hlast)⟩
  · intro hspares
    refine TagReading.values_note_kept hm hnames hamong hslash ?_ ?_
    · exact hcursor ▸ hspares.none_awaited
    · exact fun hone => hcursor ▸ hspares.slash_apart (hhead.mp hone)

/-- The slash in front of the end of the tag is behind a blank, and not in the value. -/
theorem values_kept_iff_image :
    (readingFrom {} .html {} ["<img alt='".toList,
        "' src=a/b  data-dtpp-attributes=\"alt\"/>".toList] 1 39).values
      = [("src".toList, "a/b".toList), ("data-dtpp-attributes".toList, "alt".toList)] := by
  let fragments := ["<img alt='", "' src=a/b />"]
  have hscan : (scan {} .html fragments).1
      = .ok ["<img alt='", "' src=a/b  data-dtpp-attributes=\"alt\"/>"] := by decide +kernel
  have hnote : NotedAt {} .html {} (fragments.map String.toList) 1 11 :=
    ⟨⟨_, rfl, rfl⟩, by decide +kernel⟩
  have hcursor : (progressFrom {} .html {} (fragments.map String.toList) 1 11).cursor
      = .between := by decide +kernel
  have hspares : (progressFrom {} .html {} (fragments.map String.toList) 1 11).SparesValues :=
    ⟨fun name hname => (nomatch hcursor.symm.trans hname),
      fun _ name hname => (nomatch hcursor.symm.trans hname)⟩
  have hvalues := (values_kept_iff Markers.legible hscan hnote).2.mpr hspares
  have hlength : (progressFrom {} .html {} (fragments.map String.toList) 1 12).written.length
      = 39 := by decide +kernel
  rw [hlength] at hvalues
  exact hvalues.trans (by decide +kernel)

/-- A slash at the end of an unquoted value is no longer in it behind the note, and a note where a
value is awaited becomes the value. -/
theorem values_changed_by_note :
    ((scan {} .html ["<a class=\"", "\" href=x/>"]).1
        = .ok ["<a class=\"", "\" href=x data-dtpp-attributes=\"class\"/>"] ∧
      (readingFrom {} .html {} ["<a class=\"".toList, "\" href=x/>".toList] 1 10).values
        = [("href".toList, "x/".toList)] ∧
      (readingFrom {} .html {} ["<a class=\"".toList,
          "\" href=x data-dtpp-attributes=\"class\"/>".toList] 1 39).values
        = [("href".toList, "x".toList), ("data-dtpp-attributes".toList, "class".toList)]) ∧
    (scan {} .html ["<a class=\"", "\" href=>"]).1
        = .ok ["<a class=\"", "\" href= data-dtpp-attributes=\"class\">"] ∧
      (readingFrom {} .html {} ["<a class=\"".toList, "\" href=>".toList] 1 8).values
        = [("href".toList, [])] ∧
      (readingFrom {} .html {} ["<a class=\"".toList,
          "\" href= data-dtpp-attributes=\"class\">".toList] 1 37).values
        = [("href".toList, "data-dtpp-attributes=\"class\"".toList)] := by
  decide +kernel

end LiveTemplate
