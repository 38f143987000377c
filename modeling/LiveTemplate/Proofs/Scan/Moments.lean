import LiveTemplate.Proofs.Plain.Readings

/-!
# The moments of a scan

Between any two characters a scan stands in front of a position of one of its fragments, and
`progressFrom` says how: in which state it is, and what it has written of that fragment.  A scan
that succeeds writes what it has written at the ends of its fragments, with what the placeholders
behind them leave there (`markedFrom`).

Two things are known about a fragment that is being written.  What has been written of it stays,
except that a note may go in front of a slash at its end (`suffix_foldl_read`), so the note of a
tag is found again in the marked fragment (`exists_note`).  And it is as long as what has been read
of the fragment and the notes together (`length_foldl_read`).
-/

namespace LiveTemplate

set_option autoImplicit false

open Text

variable {m : Markers} {d : Dialect}

/-! ## Where a fragment may end -/

namespace Cursor

theorem region_eq_comment_iff {x : Cursor} :
    x.region = .comment ↔ ∃ dashes, x = .comment dashes := by
  constructor
  · intro h
    cases x with
    | comment dashes => exact ⟨dashes, rfl⟩
    | quoted quote name carried => cases carried <;> exact nomatch h
    | text | opening | bang | bangDash | beforeName | elementName | between | attributeName
    | afterAttribute | beforeValue | unquoted => exact nomatch h
  · rintro ⟨dashes, rfl⟩
    rfl

theorem region_eq_text_iff {x : Cursor} : x.region = .text ↔ x = .text := by
  constructor
  · intro h
    cases x with
    | text => rfl
    | quoted quote name carried => cases carried <;> exact nomatch h
    | comment | opening | bang | bangDash | beforeName | elementName | between | attributeName
    | afterAttribute | beforeValue | unquoted => exact nomatch h
  · rintro rfl
    rfl

/-- A region that is neither text nor a comment belongs to a tag. -/
theorem region_cases (x : Cursor) :
    x.region = .text ∨ x.region = .comment ∨ x.region = .tag ∨ x.region = .attributeValue := by
  cases x.region with
  | text => exact .inl rfl
  | comment => exact .inr (.inl rfl)
  | tag => exact .inr (.inr (.inl rfl))
  | attributeValue => exact .inr (.inr (.inr rfl))

end Cursor

namespace ScanProgress

/-- The end of a fragment in a comment is a defect, wherever the fragment stands. -/
theorem finish_comment {p : ScanProgress} (index : Nat) (isLast : Bool)
    (h : p.cursor.region = .comment) :
    p.finish m d index isLast
      = (.error ⟨.endsInsideComment, ⟨some index, some p.written.length⟩⟩, p.toScanState) := by
  obtain ⟨dashes, hcursor⟩ := Cursor.region_eq_comment_iff.mp h
  obtain ⟨⟨cursor, pending⟩, written⟩ := p
  obtain rfl : cursor = .comment dashes := hcursor
  rfl

/-- The end of the last fragment in text is none. -/
theorem finish_text {p : ScanProgress} (index : Nat) (h : p.cursor.region = .text) :
    p.finish m d index true = (.ok p.written.reverse, p.toScanState) := by
  obtain ⟨⟨cursor, pending⟩, written⟩ := p
  obtain rfl : cursor = .text := Cursor.region_eq_text_iff.mp h
  rfl

/-- The end of the last fragment in a tag is a defect. -/
theorem finish_tag {p : ScanProgress} (index : Nat)
    (h : p.cursor.region = .tag ∨ p.cursor.region = .attributeValue) :
    p.finish m d index true
      = (.error ⟨.endsInsideTag, ⟨some index, some p.written.length⟩⟩, p.toScanState) := by
  obtain ⟨⟨cursor, pending⟩, written⟩ := p
  cases cursor with
  | text | comment => exact h.elim (nomatch ·) (nomatch ·)
  | opening | bang | bangDash | beforeName | elementName | between | attributeName
  | afterAttribute | beforeValue | unquoted | quoted => rfl

end ScanProgress

/-! ## States and positions -/

/-- The state behind a fragment and the placeholder that follows it. -/
def ScanState.past (m : Markers) (d : Dialect) (state : ScanState) (s : List Char) : ScanState :=
  let p := s.foldl (ScanProgress.read m) { toScanState := state }
  ⟨(p.cursor.cut m d).cursor, p.pending ++ (p.cursor.cut m d).queued.toList⟩

/-- How a scan that begins in a state stands in front of a position of one of its fragments. -/
def progressFrom (m : Markers) (d : Dialect) (state : ScanState) :
    List (List Char) → Nat → Nat → ScanProgress
  | [], _, _ => { toScanState := state }
  | s :: _, 0, k => (s.take k).foldl (ScanProgress.read m) { toScanState := state }
  | s :: rest, index + 1, k => progressFrom m d (state.past m d s) rest index k

/-- How it stands at the end of one of its fragments. -/
def endFrom (m : Markers) (d : Dialect) (state : ScanState) (fragments : List (List Char))
    (index : Nat) : ScanProgress :=
  progressFrom m d state fragments index (fragments.getD index []).length

section Positions

variable {state last : ScanState} {fragments rest written : List (List Char)} {s next : List Char}
  {index k : Nat}

theorem endFrom_zero (m : Markers) (d : Dialect) (state : ScanState) (s : List Char)
    (rest : List (List Char)) :
    endFrom m d state (s :: rest) 0
      = s.foldl (ScanProgress.read m) { toScanState := state } := by
  show (s.take s.length).foldl _ _ = _
  rw [List.take_length]

theorem endFrom_succ (m : Markers) (d : Dialect) (state : ScanState) (s : List Char)
    (rest : List (List Char)) (index : Nat) :
    endFrom m d state (s :: rest) (index + 1) = endFrom m d (state.past m d s) rest index := rfl

/-- One more character of a fragment. -/
theorem progressFrom_succ {c : Char} (hs : fragments[index]? = some s) (hc : s[k]? = some c) :
    progressFrom m d state fragments index (k + 1)
      = (progressFrom m d state fragments index k).read m c := by
  induction fragments generalizing state index with
  | nil => exact nomatch hs
  | cons first rest ih =>
      cases index with
      | zero =>
          obtain rfl : first = s := Option.some.inj hs
          show (first.take (k + 1)).foldl (ScanProgress.read m) _ = _
          rw [List.take_add_one, hc, List.foldl_append]
          rfl
      | succ index => exact ih hs

/-- The end of a fragment is reached from any position of it. -/
theorem endFrom_eq (hs : fragments[index]? = some s) (k : Nat) :
    endFrom m d state fragments index
      = (s.drop k).foldl (ScanProgress.read m) (progressFrom m d state fragments index k) := by
  induction fragments generalizing state index with
  | nil => exact nomatch hs
  | cons first rest ih =>
      cases index with
      | zero =>
          obtain rfl : first = s := Option.some.inj hs
          rw [endFrom_zero]
          show _ = (first.drop k).foldl _ ((first.take k).foldl _ _)
          rw [← List.foldl_append, List.take_append_drop]
      | succ index => exact ih hs

end Positions

/-! ## What is written -/

/-- What a scan makes of fragments from a state on, if it succeeds. -/
def markedFrom (m : Markers) (d : Dialect) (state : ScanState) :
    List (List Char) → List (List Char)
  | [] => []
  | [s] => [(s.foldl (ScanProgress.read m) { toScanState := state }).written.reverse]
  | s :: next :: rest =>
    let p := s.foldl (ScanProgress.read m) { toScanState := state }
    (p.written.reverse ++ (p.cursor.cut m d).appended)
      :: markedFrom m d (state.past m d s) (next :: rest)

section Results

variable {state last : ScanState} {fragments rest written : List (List Char)} {s next : List Char}
  {index k : Nat} {e : TemplateError}

/-- A fragment that ends in a comment is the last one that is read. -/
theorem scanFrom_of_comment (index : Nat)
    (h : (endFrom m d state (s :: rest) 0).cursor.region = .comment) :
    (scanFrom m d state index (s :: rest)).1 = .error ⟨.endsInsideComment,
      ⟨some index, some (endFrom m d state (s :: rest) 0).written.length⟩⟩ := by
  rw [endFrom_zero] at h ⊢
  rw [scanFrom, scanFragment, ScanProgress.finish_comment index _ h]

/-- Behind any other fragment the scan goes on. -/
theorem scanFrom_of_outside (index : Nat)
    (h : (endFrom m d state (s :: next :: rest) 0).cursor.region ≠ .comment) :
    (scanFrom m d state index (s :: next :: rest)).1
      = (scanFrom m d (state.past m d s) (index + 1) (next :: rest)).1.map
          (((endFrom m d state (s :: next :: rest) 0).written.reverse
            ++ ((endFrom m d state (s :: next :: rest) 0).cursor.cut m d).appended) :: ·) := by
  rw [endFrom_zero] at h ⊢
  rw [scanFrom, scanFragment, List.isEmpty_cons, Plain.finish_of_outside index fun dashes hcursor =>
    h (Cursor.region_eq_comment_iff.mpr ⟨dashes, hcursor⟩)]
  dsimp only
  rw [← ScanState.past]
  cases scanFrom m d (state.past m d s) (index + 1) (next :: rest) with
  | mk result final => cases result <;> rfl

/-- A scan of one fragment succeeds where that ends in text. -/
theorem scanFrom_singleton_of_text (index : Nat)
    (h : (endFrom m d state [s] 0).cursor.region = .text) :
    (scanFrom m d state index [s]).1 = .ok [(endFrom m d state [s] 0).written.reverse] := by
  rw [endFrom_zero] at h ⊢
  rw [scanFrom, scanFragment, List.isEmpty_nil, ScanProgress.finish_text index h]
  rfl

/-- It fails where that ends in a tag. -/
theorem scanFrom_singleton_of_tag (index : Nat)
    (h : (endFrom m d state [s] 0).cursor.region = .tag ∨
      (endFrom m d state [s] 0).cursor.region = .attributeValue) :
    (scanFrom m d state index [s]).1 = .error ⟨.endsInsideTag,
      ⟨some index, some (endFrom m d state [s] 0).written.length⟩⟩ := by
  rw [endFrom_zero] at h ⊢
  rw [scanFrom, scanFragment, List.isEmpty_nil, ScanProgress.finish_tag index h]

/-- A scan that succeeds comes to the end of its first fragment outside comments. -/
theorem outside_of_scanFrom (h : (scanFrom m d state index (s :: rest)).1 = .ok written) :
    (endFrom m d state (s :: rest) 0).cursor.region ≠ .comment := by
  intro hcomment
  rw [scanFrom_of_comment index hcomment] at h
  exact nomatch h

/-- And it goes on from there. -/
theorem exists_of_scanFrom_cons
    (h : (scanFrom m d state index (s :: next :: rest)).1 = .ok written) :
    ∃ others, (scanFrom m d (state.past m d s) (index + 1) (next :: rest)).1 = .ok others ∧
      written = ((endFrom m d state (s :: next :: rest) 0).written.reverse
        ++ ((endFrom m d state (s :: next :: rest) 0).cursor.cut m d).appended) :: others := by
  rw [scanFrom_of_outside index (outside_of_scanFrom h)] at h
  cases hlater : (scanFrom m d (state.past m d s) (index + 1) (next :: rest)).1 with
  | error e =>
      rw [hlater] at h
      exact nomatch h
  | ok others =>
      rw [hlater] at h
      exact ⟨others, rfl, (Except.ok.inj h).symm⟩

/-- A scan that succeeds writes what it has written at the ends of the fragments. -/
theorem written_of_scanFrom (h : (scanFrom m d state index fragments).1 = .ok written) :
    written = markedFrom m d state fragments := by
  induction fragments generalizing state index written with
  | nil => exact (Except.ok.inj h).symm
  | cons s rest ih =>
      cases rest with
      | nil =>
          rcases Cursor.region_cases (endFrom m d state [s] 0).cursor with htext | hcomment | htag
          · rw [scanFrom_singleton_of_text index htext, endFrom_zero] at h
            exact (Except.ok.inj h).symm
          · exact absurd hcomment (outside_of_scanFrom h)
          · rw [scanFrom_singleton_of_tag index htag] at h
            exact nomatch h
      | cons next rest =>
          obtain ⟨others, hlater, rfl⟩ := exists_of_scanFrom_cons h
          rw [ih hlater, endFrom_zero]
          rfl

/-- What reading keeps, and what a placeholder outside comments keeps, holds in front of every
position of a scan that succeeds. -/
theorem holds_progressFrom {P : ScanState → Prop}
    (hread : ∀ (p : ScanProgress) (c : Char), P p.toScanState → P (p.read m c).toScanState)
    (hcut : ∀ p : ScanProgress, p.cursor.region ≠ .comment → P p.toScanState →
      P ⟨(p.cursor.cut m d).cursor, p.pending ++ (p.cursor.cut m d).queued.toList⟩)
    (hstate : P state) (h : (scanFrom m d state index fragments).1 = .ok written) (i k : Nat) :
    P (progressFrom m d state fragments i k).toScanState := by
  have hfold : ∀ (s : List Char) (p : ScanProgress), P p.toScanState →
      P (s.foldl (ScanProgress.read m) p).toScanState := by
    intro s
    induction s with
    | nil => exact fun _ hp => hp
    | cons c rest ih => exact fun p hp => ih (p.read m c) (hread p c hp)
  induction fragments generalizing state index written i with
  | nil => exact hstate
  | cons s rest ih =>
      cases i with
      | zero => exact hfold (s.take k) { toScanState := state } hstate
      | succ i =>
          have houtside := outside_of_scanFrom h
          have hpast : P (state.past m d s) := by
            rw [endFrom_zero] at houtside
            exact hcut _ houtside (hfold s { toScanState := state } hstate)
          cases rest with
          | nil => exact hpast
          | cons next rest =>
              obtain ⟨others, hlater, -⟩ := exists_of_scanFrom_cons h
              exact ih hpast hlater i

/-- The state in front of every position is settled. -/
theorem settled_progressFrom (hstate : state.Settled)
    (h : (scanFrom m d state index fragments).1 = .ok written) (i k : Nat) :
    (progressFrom m d state fragments i k).Settled :=
  holds_progressFrom (P := ScanState.Settled) (fun _ c hp => hp.read c)
    (fun _ houtside hp => hp.cut fun dashes hcursor =>
      houtside (Cursor.region_eq_comment_iff.mpr ⟨dashes, hcursor⟩)) hstate h i k

/-- A marked fragment begins with what has been written when the fragment ends. -/
theorem getElem?_markedFrom (hs : fragments[index]? = some s) :
    ∃ tail, (markedFrom m d state fragments)[index]?
      = some ((endFrom m d state fragments index).written.reverse ++ tail) := by
  induction fragments generalizing state index with
  | nil => exact nomatch hs
  | cons first rest ih =>
      cases rest with
      | nil =>
          cases index with
          | zero => exact ⟨[], by rw [List.append_nil, endFrom_zero]; rfl⟩
          | succ index => exact nomatch hs
      | cons next rest =>
          cases index with
          | zero => exact ⟨_, by rw [endFrom_zero]; rfl⟩
          | succ index => exact ih hs

end Results

/-! ## The note of a tag -/

/-- At a position of a fragment a `>` ends a tag in which placeholders stand.  This is where their
note is put in. -/
structure NotedAt (m : Markers) (d : Dialect) (state : ScanState) (fragments : List (List Char))
    (index k : Nat) : Prop where
  here : ∃ s, fragments[index]? = some s ∧ s[k]? = some '>'
  closes : (progressFrom m d state fragments index k).closes '>' = true

namespace ScanProgress

variable {p : ScanProgress} {w : List Char}

theorem suffix_withNote (hw : w.head? ≠ some '/') (note : List Char) {written : List Char}
    (h : w <:+ written) : w <:+ withNote note written := by
  obtain ⟨more, rfl⟩ := h
  cases more with
  | nil =>
      cases w with
      | nil => exact List.nil_suffix
      | cons c rest =>
          have hc : c ≠ '/' := fun hc => hw (congrArg some hc)
          simp [withNote, hc]
  | cons c more =>
      by_cases hc : c = '/'
      · subst hc
        exact ⟨'/' :: (note.reverse ++ more), by simp [withNote]⟩
      · exact ⟨note.reverse ++ c :: more, by simp [withNote, hc]⟩

/-- What has been written stays, as long as it does not end in a slash. -/
theorem suffix_read (hw : w.head? ≠ some '/') (h : w <:+ p.written) (c : Char) :
    w <:+ (p.read m c).written := by
  by_cases hcloses : p.closes c = true
  · rw [read_of_closes hcloses]
    exact (suffix_withNote hw _ h).trans (List.suffix_cons ..)
  · rw [read_of_not_closes (Bool.eq_false_iff.mpr hcloses)]
    exact h.trans (List.suffix_cons ..)

theorem suffix_foldl_read (hw : w.head? ≠ some '/') (h : w <:+ p.written) (s : List Char) :
    w <:+ (s.foldl (read m) p).written := by
  induction s generalizing p with
  | nil => exact h
  | cons c rest ih => exact ih (suffix_read hw h c)

/-- A character is written last, whatever has been put in front of it. -/
theorem head?_read (m : Markers) (p : ScanProgress) (c : Char) :
    (p.read m c).written.head? = some c := by
  by_cases hcloses : p.closes c = true
  · rw [read_of_closes hcloses]
    rfl
  · rw [read_of_not_closes (Bool.eq_false_iff.mpr hcloses)]
    rfl

end ScanProgress

/-- The marked fragment begins with what has been written behind the `>` of a tag. -/
theorem exists_behind {state : ScanState} {fragments written : List (List Char)}
    {start index k : Nat} (hscan : (scanFrom m d state start fragments).1 = .ok written)
    (hnote : NotedAt m d state fragments index k) :
    ∃ behind, written[index]?
      = some ((progressFrom m d state fragments index (k + 1)).written.reverse ++ behind) := by
  obtain ⟨s, hs, hc⟩ := hnote.here
  have hlast : (progressFrom m d state fragments index (k + 1)).written.head? = some '>' := by
    rw [progressFrom_succ hs hc]
    exact ScanProgress.head?_read ..
  have hkept := ScanProgress.suffix_foldl_read (m := m)
    (fun hslash => absurd (hlast.symm.trans hslash) (by decide)) (List.suffix_refl _)
    (s.drop (k + 1))
  rw [← endFrom_eq hs (k + 1)] at hkept
  obtain ⟨more, hmore⟩ := hkept
  obtain ⟨tail, htail⟩ : ∃ tail, (markedFrom m d state fragments)[index]? = some (_ ++ tail) :=
    getElem?_markedFrom hs
  rw [written_of_scanFrom hscan, htail, ← hmore, List.reverse_append, List.append_assoc]
  exact ⟨_, rfl⟩

/-- The note of a tag stands in the marked fragment behind what has been written up to the end of
the tag, but in front of a slash at its end. -/
theorem exists_note {state : ScanState} {fragments written : List (List Char)}
    {start index k : Nat} (hscan : (scanFrom m d state start fragments).1 = .ok written)
    (hnote : NotedAt m d state fragments index k) :
    ∃ front slash behind,
      (progressFrom m d state fragments index k).written.reverse = front ++ slash ∧
      (slash = [] ∨ slash = ['/']) ∧
      written[index]? = some (front ++ m.note (progressFrom m d state fragments index k).pending
        ++ slash ++ '>' :: behind) := by
  obtain ⟨behind, hbehind⟩ := exists_behind hscan hnote
  obtain ⟨s, hs, hc⟩ := hnote.here
  rw [progressFrom_succ hs hc, ScanProgress.read_of_closes hnote.closes] at hbehind
  generalize (progressFrom m d state fragments index k).written = w at hbehind ⊢
  rw [hbehind]
  unfold ScanProgress.withNote
  split
  · rename_i before
    exact ⟨before.reverse, ['/'], behind, by simp, .inr rfl, by simp⟩
  · exact ⟨w.reverse, [], behind, by simp, .inl rfl, by simp⟩

/-- A template is scanned by its characters. -/
theorem scan_fst (m : Markers) (d : Dialect) (fragments : List String) :
    (scan m d fragments).1
      = (scanFrom m d {} 0 (fragments.map String.toList)).1.map (List.map String.ofList) := by
  rw [scan]
  cases scanFrom m d {} 0 (fragments.map String.toList) with
  | mk result last => cases result <;> rfl

theorem map_toList_ofList (texts : List (List Char)) :
    (texts.map String.ofList).map String.toList = texts := by
  rw [List.map_map]
  exact (List.map_congr_left fun t _ => String.toList_ofList).trans (List.map_id _)

/-- The scan of a template succeeds as the scan of its characters does. -/
theorem scan_ok {fragments written : List String} (h : (scan m d fragments).1 = .ok written) :
    (scanFrom m d {} 0 (fragments.map String.toList)).1 = .ok (written.map String.toList) := by
  rw [scan_fst] at h
  cases hscan : (scanFrom m d {} 0 (fragments.map String.toList)).1 with
  | error e =>
      rw [hscan] at h
      cases h
  | ok texts =>
      rw [hscan] at h
      rw [← Except.ok.inj h, map_toList_ofList]

/-! ## How long a marked fragment is -/

namespace ScanProgress

/-- The notes that are put in while a text is read. -/
def notes (m : Markers) (p : ScanProgress) : List Char → List (List Char)
  | [] => []
  | c :: rest =>
    (if p.closes c then [m.note p.pending] else []) ++ (p.read m c).notes m rest

theorem length_withNote (note written : List Char) :
    (withNote note written).length = written.length + note.length := by
  unfold withNote
  split <;> simp <;> omega

/-- What has been written is as long as what has been read and the notes put in. -/
theorem length_foldl_read (m : Markers) (p : ScanProgress) (s : List Char) :
    (s.foldl (read m) p).written.length
      = p.written.length + s.length + (p.notes m s).flatten.length := by
  induction s generalizing p with
  | nil => rfl
  | cons c rest ih =>
      rw [List.foldl_cons, ih, notes]
      by_cases hcloses : p.closes c = true
      · rw [if_pos hcloses, read_of_closes hcloses]
        simp only [List.length_cons, length_withNote, List.flatten_append, List.length_append,
          List.flatten_cons, List.flatten_nil, List.append_nil]
        omega
      · rw [if_neg hcloses, read_of_not_closes (Bool.eq_false_iff.mpr hcloses), List.nil_append]
        simp only [List.length_cons]
        omega

/-- A note is never empty. -/
theorem ne_nil_of_mem_notes {p : ScanProgress} {s note : List Char} (h : note ∈ p.notes m s) :
    note ≠ [] := by
  induction s generalizing p with
  | nil => exact nomatch h
  | cons c rest ih =>
      rw [notes] at h
      rcases List.mem_append.mp h with h | h
      · split at h
        · rw [List.mem_singleton.mp h]
          exact List.cons_ne_nil _ _
        · exact nomatch h
      · exact ih h

end ScanProgress

/-- The notes that a scan puts into one of its fragments. -/
def notesFrom (m : Markers) (d : Dialect) (state : ScanState) :
    List (List Char) → Nat → List (List Char)
  | [], _ => []
  | s :: _, 0 => ScanProgress.notes m { toScanState := state } s
  | s :: rest, index + 1 => notesFrom m d (state.past m d s) rest index

/-- What has been written of a fragment is as long as the fragment and its notes. -/
theorem length_endFrom {state : ScanState} {fragments : List (List Char)} {index : Nat}
    {s : List Char} (hs : fragments[index]? = some s) :
    (endFrom m d state fragments index).written.length
      = s.length + (notesFrom m d state fragments index).flatten.length := by
  induction fragments generalizing state index with
  | nil => exact nomatch hs
  | cons first rest ih =>
      cases index with
      | zero =>
          obtain rfl : first = s := Option.some.inj hs
          rw [endFrom_zero, ScanProgress.length_foldl_read]
          show 0 + first.length + _ = _
          rw [Nat.zero_add]
          rfl
      | succ index => exact ih hs

/-- The notes of a fragment take up no room only if there are none. -/
theorem length_notesFrom_eq_zero_iff {state : ScanState} {fragments : List (List Char)}
    {index : Nat} :
    (notesFrom m d state fragments index).flatten.length = 0
      ↔ notesFrom m d state fragments index = [] := by
  induction fragments generalizing state index with
  | nil => exact ⟨fun _ => rfl, fun _ => rfl⟩
  | cons s rest ih =>
      cases index with
      | zero =>
          show (ScanProgress.notes m { toScanState := state } s).flatten.length = 0
            ↔ ScanProgress.notes m { toScanState := state } s = []
          rw [List.length_eq_zero_iff, List.flatten_eq_nil_iff, List.eq_nil_iff_forall_not_mem]
          exact ⟨fun h note hnote => ScanProgress.ne_nil_of_mem_notes hnote (h note hnote),
            fun h note hnote => absurd hnote (h note)⟩
      | succ index => exact ih

end LiveTemplate
