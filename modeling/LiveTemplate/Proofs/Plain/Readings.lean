import LiveTemplate.Proofs.Plain.Document
import LiveTemplate.Proofs.Scan.Accounting

/-!
# Reading a text with placeholders

`Scans` reads a text with placeholders in one go, over the ends of its fragments.  A reading of a
text is a scan of its fragments: `scanOn_of_scans`.  Readings can be put together (`Scans.append`).

`Passes` says what a part of a text is turned into, whatever has been written in front of it.  The
one thing that matters there is a slash: the note of a tag is put in front of a slash that has been
written last, so it has to be known at the end of a tag that there is none (`Unslashed`).
-/

namespace LiveTemplate.Plain

set_option autoImplicit false

open Text

variable {m : Markers} {d : Dialect}

/-! ## Reading a text with placeholders -/

/-- Reading a text from one point to another, with what has been written of the fragments that end
between the two, and the names that the placeholders between them put on lists. -/
inductive Scans (m : Markers) (d : Dialect) :
    ScanProgress → List (Option Char) → List Char → List (Option (List Char)) → ScanProgress → Prop
  | nil (p : ScanProgress) : Scans m d p [] [] [] p
  | read {p q : ScanProgress} {c : Char} {rest : List (Option Char)} {out : List Char}
      {queued : List (Option (List Char))} (later : Scans m d (p.read m c) rest out queued q) :
      Scans m d p (some c :: rest) out queued q
  | cut {p q : ScanProgress} {rest : List (Option Char)} {out : List Char}
      {queued : List (Option (List Char))} (outside : ∀ dashes, p.cursor ≠ .comment dashes)
      (later : Scans m d
        ⟨⟨(p.cursor.cut m d).cursor, p.pending ++ (p.cursor.cut m d).queued.toList⟩, []⟩
        rest out queued q) :
      Scans m d p (none :: rest) (p.written.reverse ++ (p.cursor.cut m d).appended ++ out)
        ((p.cursor.cut m d).queued :: queued) q

/-- A reading goes on where another one has ended. -/
theorem Scans.append {p q r : ScanProgress} {xs ys : List (Option Char)} {out more : List Char}
    {queued later : List (Option (List Char))} (hxs : Scans m d p xs out queued q)
    (hys : Scans m d q ys more later r) :
    Scans m d p (xs ++ ys) (out ++ more) (queued ++ later) r := by
  induction hxs with
  | nil p => exact hys
  | read _ ih => exact .read (ih hys)
  | cut outside _ ih =>
      rw [List.append_assoc]
      exact .cut outside (ih hys)

/-- The end of a fragment outside comments leaves what the cursor leaves there. -/
theorem finish_of_outside {p : ScanProgress} (index : Nat)
    (h : ∀ dashes, p.cursor ≠ .comment dashes) :
    p.finish m d index false = (.ok (p.written.reverse ++ (p.cursor.cut m d).appended),
      ⟨(p.cursor.cut m d).cursor, p.pending ++ (p.cursor.cut m d).queued.toList⟩) := by
  obtain ⟨⟨cursor, pending⟩, written⟩ := p
  cases cursor with
  | comment dashes => exact absurd rfl (h dashes)
  | text => simp [ScanProgress.finish, Cursor.cut]
  | opening | bang | bangDash | beforeName | elementName | between | attributeName
  | afterAttribute | beforeValue | unquoted | quoted => rfl

/-- A scan that has read a part of its first fragment already. -/
def scanOn (m : Markers) (d : Dialect) (p : ScanProgress) (index : Nat) (first : List Char)
    (others : List (List Char)) : Except TemplateError (List (List Char)) × ScanState :=
  match (first.foldl (ScanProgress.read m) p).finish m d index others.isEmpty with
  | (.error e, state) => (.error e, state)
  | (.ok written, state) =>
    match scanFrom m d state (index + 1) others with
    | (.error e, state) => (.error e, state)
    | (.ok later, state) => (.ok (written :: later), state)

theorem scanFrom_cons (state : ScanState) (index : Nat) (first : List Char)
    (others : List (List Char)) :
    scanFrom m d state index (first :: others)
      = scanOn m d { toScanState := state } index first others := rfl

/-- The reading of a text that ends outside tags is a scan of its fragments, and the placeholders of
the fragments are those of the text. -/
theorem scanOn_of_scans {p q : ScanProgress} {xs : List (Option Char)} {out first : List Char}
    {queued : List (Option (List Char))} {others : List (List Char)} (index : Nat)
    (h : Scans m d p xs out queued q) (htext : q.cursor = .text)
    (hfragments : fragmentsOf xs = first :: others) :
    (∃ texts, scanOn m d p index first others = (.ok texts, q.toScanState) ∧
        texts.flatten = out ++ q.written.reverse) ∧
      placeholders m d p.cursor (first :: others) = queued := by
  induction h generalizing index first others with
  | nil p =>
      obtain ⟨rfl, rfl⟩ : [] = first ∧ [] = others := by simpa [fragmentsOf] using hfragments
      refine ⟨⟨[p.written.reverse], ?_, by simp⟩, rfl⟩
      simp [scanOn, ScanProgress.finish, htext, scanFrom]
  | @read p q c rest out queued later ih =>
      obtain ⟨first', others', hrest⟩ := exists_fragmentsOf rest
      rw [fragmentsOf_some c hrest] at hfragments
      cases hfragments
      obtain ⟨hscan, hplaceholders⟩ := ih index htext hrest
      refine ⟨hscan, ?_⟩
      rw [← hplaceholders, ScanProgress.cursor_read]
      cases others <;> rfl
  | @cut p q rest out queued outside later ih =>
      obtain ⟨first', others', hrest⟩ := exists_fragmentsOf rest
      rw [fragmentsOf, hrest] at hfragments
      cases hfragments
      obtain ⟨⟨texts, hscan, hflat⟩, hplaceholders⟩ := ih (index + 1) htext hrest
      refine ⟨⟨(p.written.reverse ++ (p.cursor.cut m d).appended) :: texts, ?_, ?_⟩, ?_⟩
      · rw [scanOn, List.foldl_nil, List.isEmpty_cons, finish_of_outside index outside]
        dsimp only
        rw [scanFrom_cons, hscan]
      · rw [List.flatten_cons, hflat, List.append_assoc, List.append_assoc, List.append_assoc]
      · rw [placeholders, List.foldl_nil]
        exact congrArg ((p.cursor.cut m d).queued :: ·) hplaceholders

/-! ## Parts of a text -/

/-- A part of a text is turned into `text` when it is read from one state to another, whatever has
been written in front of it as long as `before` holds of that, and `behind` holds of what has been
written then. -/
def Passes (before : List Char → Prop) (p : ScanState) (xs : List (Option Char)) (text : List Char)
    (queued : List (Option (List Char))) (q : ScanState) (behind : List Char → Prop) : Prop :=
  ∀ written, before written → ∃ out written', behind written' ∧
    Scans {} .html ⟨p, written⟩ xs out queued ⟨q, written'⟩ ∧
    out ++ written'.reverse = written.reverse ++ text

/-- Nothing is known about what has been written. -/
def Anything (_ : List Char) : Prop := True

/-- The character written last is no slash. -/
def Unslashed (written : List Char) : Prop := written.head? ≠ some '/'

namespace Passes

variable {p q r : ScanState} {xs ys : List (Option Char)} {s t : List Char}
  {queued later : List (Option (List Char))} {before between behind : List Char → Prop}

theorem nil (before : List Char → Prop) (p : ScanState) : Passes before p [] [] [] p before :=
  fun written h => ⟨[], written, h, .nil _, (List.append_nil _).symm⟩

theorem append (hxs : Passes before p xs s queued q between)
    (hys : Passes between q ys t later r behind) :
    Passes before p (xs ++ ys) (s ++ t) (queued ++ later) r behind := by
  intro written hbefore
  obtain ⟨out, written', hbetween, hscans, htext⟩ := hxs written hbefore
  obtain ⟨more, written'', hbehind, hmore, htext'⟩ := hys written' hbetween
  refine ⟨out ++ more, written'', hbehind, hscans.append hmore, ?_⟩
  rw [List.append_assoc, htext', ← List.append_assoc, htext, List.append_assoc]

theorem imp {behind' : List Char → Prop} (h : Passes before p xs s queued q behind)
    (hbehind : ∀ written, behind written → behind' written) :
    Passes before p xs s queued q behind' := by
  intro written hwritten
  obtain ⟨out, written', hend, hrest⟩ := h written hwritten
  exact ⟨out, written', hbehind written' hend, hrest⟩

theorem forget (h : Passes before p xs s queued q behind) :
    Passes before p xs s queued q Anything :=
  h.imp fun _ _ => trivial

theorem of_anything (h : Passes Anything p xs s queued q behind) :
    Passes before p xs s queued q behind :=
  fun written _ => h written trivial

/-- A character that ends no tag with placeholders is written as it is. -/
theorem char (before : List Char → Prop) (cursor : Cursor) (pending : List (List Char)) {c : Char}
    (hopen : c = '>' → cursor.inTag = true → pending = []) :
    Passes before ⟨cursor, pending⟩ [some c] [c] [] ⟨cursor.next c, pending⟩
      (fun written => ∃ front, before front ∧ written = c :: front) := by
  intro written hbefore
  have hread : ScanProgress.read {} ⟨⟨cursor, pending⟩, written⟩ c
      = ⟨⟨cursor.next c, pending⟩, c :: written⟩ := by
    refine ScanProgress.read_of_not_closes (Bool.eq_false_iff.mpr fun h => ?_)
    obtain ⟨⟨hclose, htag⟩, hpending⟩ := ScanProgress.closes_eq_true_iff.mp h
    exact hpending (hopen hclose htag)
  refine ⟨[], c :: written, ⟨written, hbefore, rfl⟩, .read ?_, by simp⟩
  rw [hread]
  exact .nil _

theorem chars (before : List Char → Prop) (cursor : Cursor) (pending : List (List Char))
    {s : List Char} (hopen : pending = [] ∨ '>' ∉ s) :
    Passes before ⟨cursor, pending⟩ (s.map some) s [] ⟨s.foldl Cursor.next cursor, pending⟩
      (fun written => ∃ front, before front ∧ written = s.reverse ++ front) := by
  induction s generalizing cursor before with
  | nil => exact (nil before _).imp fun written h => ⟨written, h, rfl⟩
  | cons c rest ih =>
      have hfirst := char before cursor pending (c := c) fun hc _ =>
        hopen.elim id fun h => absurd (by simp [hc]) h
      have hrest := ih (fun written => ∃ front, before front ∧ written = c :: front)
        (cursor.next c) (hopen.imp_right fun h hmem => h (by simp [hmem]))
      refine (hfirst.append hrest).imp ?_
      rintro _ ⟨_, ⟨front, hfront, rfl⟩, rfl⟩
      exact ⟨front, hfront, by simp⟩

/-- A placeholder is cut out, and what belongs at its place is written. -/
theorem cut {cursor : Cursor} {pending : List (List Char)}
    (outside : ∀ dashes, cursor ≠ .comment dashes) :
    Passes before ⟨cursor, pending⟩ [none] (cursor.cut {} .html).appended
      [(cursor.cut {} .html).queued]
      ⟨(cursor.cut {} .html).cursor, pending ++ (cursor.cut {} .html).queued.toList⟩
      (· = []) := by
  intro written _
  exact ⟨_, [], rfl, .cut outside (.nil _), by simp⟩

end Passes

theorem unslashed_append {s front : List Char} (hs : s.getLast? ≠ some '/')
    (hfront : Unslashed front) : Unslashed (s.reverse ++ front) := by
  unfold Unslashed
  rw [List.head?_append, List.head?_reverse]
  cases hlast : s.getLast? with
  | none => exact hfront
  | some c => exact fun hhead => hs (hlast.trans hhead)

/-- Characters that end no tag are written as they are inside a tag. -/
theorem passes_chars (cursor : Cursor) (pending : List (List Char)) {s : List Char}
    (hopen : '>' ∉ s) (hslash : s.getLast? ≠ some '/') :
    Passes Unslashed ⟨cursor, pending⟩ (s.map some) s [] ⟨s.foldl Cursor.next cursor, pending⟩
      Unslashed :=
  (Passes.chars Unslashed cursor pending (.inr hopen)).imp fun _ ⟨_, hfront, heq⟩ =>
    heq ▸ unslashed_append hslash hfront

theorem unslashed_cons {c : Char} (h : c ≠ '/') (front : List Char) : Unslashed (c :: front) :=
  fun hhead => h (Option.some.inj hhead)

/-- A character is written as it is inside a tag. -/
theorem passes_char (before : List Char → Prop) (cursor : Cursor) (pending : List (List Char))
    (c : Char) (hopen : c ≠ '>') (hslash : c ≠ '/') :
    Passes before ⟨cursor, pending⟩ [some c] [c] [] ⟨cursor.next c, pending⟩ Unslashed :=
  (Passes.char before cursor pending fun hc => absurd hc hopen).imp fun _ ⟨front, _, heq⟩ =>
    heq ▸ unslashed_cons hslash front

end LiveTemplate.Plain
