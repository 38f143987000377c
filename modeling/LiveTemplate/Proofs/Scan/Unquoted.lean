import LiveTemplate.Proofs.Scan.Cuts
import LiveTemplate.Proofs.Scan.Waiting
import LiveTemplate.Proofs.Text.References
import Mathlib.Data.List.DropRight

/-!
# Placeholders in unquoted values

A quoted value that a placeholder has cut goes on behind it.  An unquoted one does not: the scan is
between attributes there, and reads what follows of the value as if it began a new one.  So only the
first placeholder in the value is sure to be noted under the name of its attribute, and each later
one is noted under the name that the piece in front of it gives itself (`ownName`), or under none.

`pending_unquoted` says this for every value and all cuts in it, as long as no piece behind a cut
opens a quote of its own.  Cursors that differ in the names that they hold are read on alike
(`unnamed_next`), so the tag ends where it ends in the markup as a whole.
-/

namespace LiveTemplate

set_option autoImplicit false

open Text

variable {m : Markers} {d : Dialect}

/-! ## Cursors without names -/

namespace Cursor

/-- The cursor without the names that it holds.  In the blanks behind a name it is between
attributes. -/
def unnamed : Cursor → Cursor
  | .attributeName _ => .attributeName []
  | .afterAttribute _ => .between
  | .beforeValue _ => .beforeValue []
  | .unquoted _ => .unquoted []
  | .quoted quote _ _ => .quoted quote [] false
  | cursor => cursor

theorem inTag_unnamed (x : Cursor) : x.unnamed.inTag = x.inTag := by
  cases x <;> rfl

theorem unnamed_eq_text_iff {x : Cursor} : x.unnamed = .text ↔ x = .text := by
  cases x <;> simp [unnamed]

/-- Names do not matter for how the reading goes on. -/
theorem unnamed_next (x : Cursor) (c : Char) :
    (x.unnamed.next c).unnamed = (x.next c).unnamed := by
  cases x with
  | afterAttribute name =>
      show (nextBetween c).unnamed = ((afterAttribute name).next c).unnamed
      rw [next]
      by_cases hblank : isBlank c = true
      · have hclose : c ≠ '>' := by
          rintro rfl
          exact absurd hblank (by decide)
        simp [nextBetween, hblank, hclose, unnamed]
      · rw [if_neg hblank]
        split
        · rename_i hequals
          rw [hequals]
          rfl
        · rfl
  | attributeName | beforeValue | unquoted | quoted =>
      rw [unnamed, next, next]
      split_ifs <;> rfl
  | text | opening | bang | bangDash | beforeName | elementName | between | comment => rfl

theorem unnamed_foldl_next {x y : Cursor} (h : x.unnamed = y.unnamed) (s : List Char) :
    (s.foldl next x).unnamed = (s.foldl next y).unnamed := by
  induction s generalizing x y with
  | nil => exact h
  | cons c rest ih =>
      refine ih ?_
      rw [← unnamed_next x, h, unnamed_next y]

end Cursor

/-! ## Pieces of a value -/

/-- What stands behind the first equals sign of a piece. -/
def behindSign (piece : List Char) : List Char := (piece.dropWhile (· != '=')).tail

/-- The name of the attribute that a piece of a value gives itself: what stands in front of its
first equals sign, from the last slash on. -/
def ownName (piece : List Char) : List Char :=
  if '=' ∈ piece then (piece.takeWhile (· != '=')).rtakeWhile (· != '/') else []

/-- No quote follows the first equals sign of a piece. -/
def OpensNone (piece : List Char) : Prop :=
  (behindSign piece).head? ≠ some '"' ∧ (behindSign piece).head? ≠ some '\''

instance (piece : List Char) : Decidable (OpensNone piece) := inferInstanceAs (Decidable (_ ∧ _))

/-- The characters of an unquoted value. -/
def ValueText (s : List Char) : Prop := ∀ c ∈ s, isBlank c = false ∧ c ≠ '>'

section Pieces

variable {piece : List Char}

/-- Up to an equals sign a piece is read as names, with slashes between them.  The name that counts
is the last one. -/
theorem foldl_next_names {s : List Char} (hs : ValueText s) (hsign : '=' ∉ s) :
    s.foldl Cursor.next .between = if s.rtakeWhile (· != '/') = [] then .between
      else .attributeName (s.rtakeWhile (· != '/')) := by
  induction s using List.reverseRecOn with
  | nil => rfl
  | append_singleton s c ih =>
      have hfront := ih (fun x hx => hs x (List.mem_append_left _ hx))
        fun hmem => hsign (List.mem_append_left _ hmem)
      obtain ⟨hblank, hclose⟩ := hs c (by simp)
      have hequals : c ≠ '=' := fun heq => hsign (by simp [heq])
      rw [List.foldl_append, hfront, List.rtakeWhile_concat]
      by_cases hslash : c = '/'
      · subst hslash
        split <;> rfl
      · have hnext : Cursor.nextBetween c = .attributeName [c] := by
          simp [Cursor.nextBetween, hblank, hclose, hequals, hslash]
        by_cases hnone : s.rtakeWhile (· != '/') = []
        · simp [hnone, hslash, Cursor.next, hnext]
        · simp [hnone, hslash, Cursor.next, hblank, hclose, hequals]

/-- A piece that opens no quote ends between values, in front of a value or in one, and if it is
one of these, it has given itself the name of the attribute. -/
theorem foldl_next_piece (hpiece : ValueText piece) (hopens : OpensNone piece) :
    ('=' ∉ piece ∧ (piece.foldl Cursor.next .between).isBetweenValues = true) ∨
      '=' ∈ piece ∧ ((behindSign piece = [] ∧
          piece.foldl Cursor.next .between = .beforeValue (ownName piece)) ∨
        piece.foldl Cursor.next .between = .unquoted (ownName piece)) := by
  by_cases hmem : '=' ∈ piece
  · refine .inr ⟨hmem, ?_⟩
    have hsplit : piece = piece.takeWhile (· != '=') ++ '=' :: behindSign piece :=
      eq_takeWhile_append_of_mem hmem
    have hbehind : ∀ c ∈ behindSign piece, isBlank c = false ∧ c ≠ '>' := fun c hc =>
      hpiece c (hsplit ▸ List.mem_append_right _ (List.mem_cons_of_mem _ hc))
    have hfront : (piece.takeWhile (· != '=') ++ ['=']).foldl Cursor.next .between
        = .beforeValue (ownName piece) := by
      have hnames := foldl_next_names (s := piece.takeWhile (· != '='))
        (fun c hc => hpiece c ((List.takeWhile_sublist _).mem hc))
        fun hsign => absurd (List.mem_takeWhile_imp hsign) (by decide)
      rw [List.foldl_append, hnames, ownName, if_pos hmem]
      split
      · rename_i hnone
        rw [hnone]
        rfl
      · rfl
    have hall : piece.foldl Cursor.next .between
        = (behindSign piece).foldl Cursor.next (.beforeValue (ownName piece)) := by
      rw [← hfront, ← List.foldl_append, List.append_assoc]
      exact congrArg (List.foldl Cursor.next .between) hsplit
    rw [hall]
    cases hfirst : behindSign piece with
    | nil => exact .inl ⟨rfl, rfl⟩
    | cons c rest =>
        rw [hfirst] at hbehind
        obtain ⟨hblank, hclose⟩ := hbehind c (List.mem_cons_self ..)
        rw [OpensNone, hfirst] at hopens
        have hdouble : c ≠ '"' := fun heq => hopens.1 (congrArg some heq)
        have hsingle : c ≠ '\'' := fun heq => hopens.2 (congrArg some heq)
        have hnext : (Cursor.beforeValue (ownName piece)).next c = .unquoted (ownName piece) := by
          simp [Cursor.next, hblank, hclose, hdouble, hsingle]
        rw [List.foldl_cons, hnext]
        exact .inr (Plain.foldl_next_unquoted fun x hx => hbehind x (List.mem_cons_of_mem c hx))
  · refine .inl ⟨hmem, ?_⟩
    rw [foldl_next_names hpiece hmem]
    split <;> rfl

/-- If the first equals sign is not the end of the piece either, a word may end behind it. -/
theorem endsWord_piece (hpiece : ValueText piece) (hopens : OpensNone piece)
    (hsign : '=' ∈ piece → behindSign piece ≠ []) :
    Plain.EndsWord (piece.foldl Cursor.next .between) := by
  rcases foldl_next_piece hpiece hopens with ⟨-, hbetween⟩ | ⟨hmem, ⟨hnone, -⟩ | hunquoted⟩
  · exact (Cursor.endsTag_of_isBetweenValues hbetween).endsWord
  · exact absurd hnone (hsign hmem)
  · rw [hunquoted]
    trivial

theorem spellName_nil (d : Dialect) : spellName d [] = [] := by
  cases d <;> rfl

/-- A placeholder behind such a piece is noted under the name that the piece gives itself. -/
theorem cut_piece (hpiece : ValueText piece) (hopens : OpensNone piece) :
    ((piece.foldl Cursor.next .between).cut m d).cursor = .between ∧
      ((piece.foldl Cursor.next .between).cut m d).queued = some (spellName d (ownName piece)) ∧
      (piece.foldl Cursor.next .between).region ≠ .comment := by
  rcases foldl_next_piece hpiece hopens with ⟨hmem, hbetween⟩ | ⟨-, ⟨-, hcursor⟩ | hcursor⟩
  · rw [ownName, if_neg hmem, spellName_nil]
    generalize piece.foldl Cursor.next .between = x at hbetween
    cases x with
    | between | attributeName | afterAttribute => exact ⟨rfl, rfl, nofun⟩
    | text | opening | bang | bangDash | beforeName | elementName | beforeValue | unquoted | quoted
    | comment => exact nomatch hbetween
  · rw [hcursor]
    exact ⟨rfl, rfl, nofun⟩
  · rw [hcursor]
    exact ⟨rfl, rfl, nofun⟩

end Pieces

/-! ## Up to the end of the tag -/

/-- Without a `>` no placeholder is noted. -/
theorem pending_foldl_read {p : ScanProgress} {s : List Char} (hs : '>' ∉ s) :
    (s.foldl (ScanProgress.read m) p).pending = p.pending := by
  induction s generalizing p with
  | nil => rfl
  | cons c rest ih =>
      have hopen : p.closes c = false := Bool.eq_false_iff.mpr fun hcloses =>
        hs ((ScanProgress.closes_eq_true_iff.mp hcloses).1.1 ▸ List.mem_cons_self ..)
      rw [List.foldl_cons, ih fun hmem => hs (List.mem_cons_of_mem c hmem),
        ScanProgress.read_of_not_closes hopen]

/-- Reading puts no placeholders on an empty list. -/
theorem pending_foldl_read_nil {p : ScanProgress} (hp : p.pending = []) (s : List Char) :
    (s.foldl (ScanProgress.read m) p).pending = [] := by
  induction s generalizing p with
  | nil => exact hp
  | cons c rest ih =>
      refine ih ?_
      rcases ScanProgress.pending_read m p c with heq | heq
      · exact heq.trans hp
      · exact heq

/-- A tag ends in the same place for two cursors that are read on alike, and up to there its
placeholders wait. -/
theorem exists_close {x : Cursor} {p : ScanProgress} {s : List Char} (hx : x.InAttributes)
    (htag : p.cursor.inTag = x.inTag)
    (hnext : ∀ c ∈ s.head?, (p.cursor.next c).unnamed = (x.next c).unnamed)
    (hend : s.foldl Cursor.next x = .text) :
    ∃ k, s[k]? = some '>' ∧ ((s.take k).foldl Cursor.next x).inTag = true ∧
      (∀ i ≤ k, (s.take i).foldl Cursor.next x ≠ .text) ∧
      ((s.take k).foldl (ScanProgress.read m) p).cursor.inTag = true ∧
      ((s.take k).foldl (ScanProgress.read m) p).pending = p.pending := by
  induction s generalizing x p with
  | nil => exact absurd hend hx.ne_text
  | cons c rest ih =>
      by_cases hclose : c = '>' ∧ x.inTag = true
      · refine ⟨0, congrArg some hclose.1, hclose.2, ?_, htag.trans hclose.2, rfl⟩
        rintro i hi
        obtain rfl := Nat.le_zero.mp hi
        exact hx.ne_text
      · have hopen : p.closes c = false := by
          refine Bool.eq_false_iff.mpr fun hcloses => hclose ?_
          obtain ⟨⟨hc, hin⟩, -⟩ := ScanProgress.closes_eq_true_iff.mp hcloses
          exact ⟨hc, htag ▸ hin⟩
        have hread := ScanProgress.read_of_not_closes (m := m) hopen
        have hsame : (p.read m c).cursor.unnamed = (x.next c).unnamed := by
          rw [hread]
          exact hnext c rfl
        obtain ⟨k, hk, hinTag, hall, hin, hpending⟩ := ih (x := x.next c) (p := p.read m c)
          (hx.next fun hin hc => hclose ⟨hc, hin⟩)
          (by rw [← Cursor.inTag_unnamed, hsame, Cursor.inTag_unnamed])
          (fun y _ => by rw [← Cursor.unnamed_next, hsame, Cursor.unnamed_next]) hend
        refine ⟨k + 1, hk, hinTag, ?_, hin, ?_⟩
        · intro i hi
          cases i with
          | zero => exact hx.ne_text
          | succ i => exact hall i (Nat.le_of_succ_le_succ hi)
        · rw [List.take_succ_cons, List.foldl_cons, hpending, hread]

/-! ## Unquoted values -/

/-- An unquoted value of an attribute: its first character, and the position behind its last. -/
structure UnquotedValue (s : List Char) (name : List Char) (start stop : Nat) : Prop where
  lt : start < stop
  awaited : cursorAt s start = .beforeValue name
  inside : ∀ k ≤ stop, start < k → cursorAt s k = .unquoted name
  behind : ∃ c, s[stop]? = some c ∧ (isBlank c = true ∨ c = '>')

instance (s name : List Char) (start stop : Nat) : Decidable (UnquotedValue s name start stop) :=
  decidable_of_iff (start < stop ∧ cursorAt s start = .beforeValue name ∧
      (∀ k ≤ stop, start < k → cursorAt s k = .unquoted name) ∧
      s[stop]?.any (fun c => isBlank c || c = '>') = true) <| by
    rw [Option.any_eq_true]
    simp only [Bool.or_eq_true, decide_eq_true_eq]
    exact ⟨fun ⟨lt, awaited, inside, behind⟩ => ⟨lt, awaited, inside, behind⟩,
      fun ⟨lt, awaited, inside, behind⟩ => ⟨lt, awaited, inside, behind⟩⟩

section Value

variable {s name : List Char} {start stop cut : Nat} {cuts : List Nat}

theorem UnquotedValue.valueText (h : UnquotedValue s name start stop) (hcut : start < cut) :
    ValueText ((s.take stop).drop cut) := by
  intro c hc
  obtain ⟨i, hi⟩ := List.mem_iff_getElem?.mp hc
  rw [List.getElem?_drop, List.getElem?_take] at hi
  split at hi
  · rename_i hlt
    have hbefore := h.inside (cut + i) (by omega) (by omega)
    have hnext := cursorAt_succ hi
    rw [h.inside (cut + i + 1) (by omega) (by omega), hbefore, Cursor.next] at hnext
    split at hnext
    · cases hnext
    · split at hnext
      · cases hnext
      · exact ⟨Bool.eq_false_iff.mpr ‹_›, ‹_›⟩
  · cases hi

/-- The value is in the tag that ends behind it. -/
theorem UnquotedValue.sameTag (h : UnquotedValue s name start stop) {close : Nat}
    (hclose : stop ≤ close) (hbehind : ∀ i, stop ≤ i → i ≤ close → cursorAt s i ≠ .text) :
    SameTag s start close := by
  refine ⟨(Nat.le_of_lt h.lt).trans hclose, fun i hi hle => ?_⟩
  by_cases hstop : stop ≤ i
  · exact hbehind i hstop hi
  · rcases Nat.lt_or_eq_of_le hle with hlt | rfl
    · rw [h.inside i (by omega) hlt]
      nofun
    · rw [h.awaited]
      nofun

theorem ValueText.close_not_mem {t : List Char} (h : ValueText t) : '>' ∉ t := fun hmem =>
  (h '>' hmem).2 rfl

theorem cursorAt_add (s : List Char) (k i : Nat) :
    cursorAt s (k + i) = ((s.drop k).take i).foldl Cursor.next (cursorAt s k) := by
  unfold cursorAt
  rw [List.take_add, List.foldl_append]

/-- The names under which the placeholders behind the first are noted. -/
def ownNames (d : Dialect) (value : List Char) (cut : Nat) (cuts : List Nat) : List (List Char) :=
  (pieces value cut cuts).dropLast.map fun piece => spellName d (ownName piece)

theorem pieces_ne_nil (s : List Char) (cut : Nat) (cuts : List Nat) : pieces s cut cuts ≠ [] := by
  cases cuts <;> exact List.cons_ne_nil _ _

theorem ownNames_cons (d : Dialect) (value : List Char) (cut next : Nat) (cuts : List Nat) :
    ownNames d value cut (next :: cuts)
      = spellName d (ownName ((value.take next).drop cut)) :: ownNames d value next cuts := by
  unfold ownNames
  rw [pieces, List.dropLast_cons_of_ne_nil (pieces_ne_nil _ _ _)]
  rfl

theorem length_ownNames (d : Dialect) (value : List Char) (cut : Nat) (cuts : List Nat) :
    (ownNames d value cut cuts).length = cuts.length := by
  induction cuts generalizing cut with
  | nil => rfl
  | cons next rest ih => rw [ownNames_cons, List.length_cons, ih, List.length_cons]

theorem getElem?_pieces (s : List Char) (cut : Nat) (cuts : List Nat) :
    (pieces s cut cuts)[cuts.length]? = some (s.drop (cuts.getLastD cut)) := by
  induction cuts generalizing cut with
  | nil => rfl
  | cons next rest ih =>
      rw [List.getLastD_cons]
      exact ih next

/-- A scan succeeds if its first fragment ends outside comments and it succeeds from there. -/
theorem exists_scanFrom_cons {state : ScanState} {piece : List Char} {others : List (List Char)}
    {index : Nat} (hothers : others ≠ [])
    (houtside : (piece.foldl Cursor.next state.cursor).region ≠ .comment)
    (h : ∃ written, (scanFrom m d (state.past m d piece) (index + 1) others).1 = .ok written) :
    ∃ written, (scanFrom m d state index (piece :: others)).1 = .ok written := by
  obtain ⟨written, hwritten⟩ := h
  obtain ⟨first, rest, rfl⟩ := List.exists_cons_of_ne_nil hothers
  have hregion : (endFrom m d state (piece :: first :: rest) 0).cursor.region ≠ .comment := by
    rw [endFrom_zero, ScanProgress.cursor_foldl_read]
    exact houtside
  have hscan := scanFrom_of_outside index hregion
  rw [hwritten] at hscan
  exact ⟨_, hscan⟩

/-- Behind a cut the pieces of a value are read from between attributes, and each placeholder is
noted under the name that the piece in front of it gives itself. -/
theorem behind_cut (pending : List (List Char)) (hsorted : (cut :: cuts).Pairwise (· ≤ ·))
    (hinside : ∀ next ∈ cuts, next ≤ stop) (hvalue : ValueText ((s.take stop).drop cut))
    (hopens : ∀ piece ∈ (pieces (s.take stop) cut cuts).dropLast, OpensNone piece) :
    (∀ k, progressFrom m d ⟨.between, pending⟩ (pieces s cut cuts) cuts.length k
      = ((s.drop (cuts.getLastD cut)).take k).foldl (ScanProgress.read m)
          { cursor := .between, pending := pending ++ ownNames d (s.take stop) cut cuts }) ∧
    ((s.drop (cuts.getLastD cut)).foldl Cursor.next .between = .text → ∀ index, ∃ written,
      (scanFrom m d ⟨.between, pending⟩ index (pieces s cut cuts)).1 = .ok written) := by
  induction cuts generalizing cut pending with
  | nil =>
      constructor
      · intro k
        rw [show pending ++ ownNames d (s.take stop) cut [] = pending from List.append_nil pending]
        rfl
      · intro hend index
        refine ⟨_, scanFrom_singleton_of_text index ?_⟩
        rw [endFrom_zero, ScanProgress.cursor_foldl_read]
        exact congrArg Cursor.region hend
  | cons next rest ih =>
      have hle : cut ≤ next := List.rel_of_pairwise_cons hsorted (List.mem_cons_self ..)
      have hpiece : (s.take next).drop cut = ((s.take stop).take next).drop cut := by
        rw [List.take_take, Nat.min_eq_left (hinside next (List.mem_cons_self ..))]
      have htext : ValueText ((s.take next).drop cut) := by
        rw [hpiece, List.drop_take]
        exact fun c hc => hvalue c (List.mem_of_mem_take hc)
      have hlaterText : ValueText ((s.take stop).drop next) := by
        obtain ⟨more, rfl⟩ := Nat.exists_eq_add_of_le hle
        rw [← List.drop_drop]
        exact fun c hc => hvalue c (List.mem_of_mem_drop hc)
      rw [pieces, List.dropLast_cons_of_ne_nil (pieces_ne_nil _ _ _)] at hopens
      obtain ⟨hpieceOpens, hlaterOpens⟩ := List.forall_mem_cons.mp hopens
      rw [← hpiece] at hpieceOpens
      obtain ⟨hcursor, hqueued, houtside⟩ := cut_piece (m := m) (d := d) htext hpieceOpens
      have hpast : (⟨.between, pending⟩ : ScanState).past m d ((s.take next).drop cut)
          = ⟨.between, pending ++ [spellName d (ownName ((s.take next).drop cut))]⟩ := by
        rw [ScanState.past, ScanProgress.cursor_foldl_read, pending_foldl_read htext.close_not_mem,
          hcursor, hqueued]
        rfl
      obtain ⟨hprogress, hsuccess⟩ := ih
        (pending ++ [spellName d (ownName ((s.take next).drop cut))]) hsorted.of_cons
        (fun later hlater => hinside later (List.mem_cons_of_mem next hlater)) hlaterText
        hlaterOpens
      rw [List.getLastD_cons, ownNames_cons, ← hpiece]
      constructor
      · intro k
        show progressFrom m d (ScanState.past m d _ _) _ _ _ = _
        rw [hpast, hprogress k, List.append_assoc]
        rfl
      · intro hend index
        refine exists_scanFrom_cons (pieces_ne_nil s next rest) houtside ?_
        rw [hpast]
        exact hsuccess hend (index + 1)

/-- Where a word may end, what follows an unquoted value is read on as it is behind the value. -/
theorem unnamed_next_of_endsWord {x : Cursor} {c : Char} (hx : Plain.EndsWord x)
    (hc : isBlank c = true ∨ c = '>') (name : List Char) :
    (x.next c).unnamed = ((Cursor.unquoted name).next c).unnamed := by
  rcases hc with hblank | rfl
  · have hstarts := hx.next_blank hblank
    have hwhole : (Cursor.unquoted name).next c = .between := if_pos hblank
    rw [hwhole]
    cases hcursor : x.next c with
    | between | afterAttribute => rfl
    | text | opening | bang | bangDash | beforeName | elementName | attributeName | beforeValue
    | unquoted | quoted | comment =>
        rw [hcursor] at hstarts
        exact hstarts.elim
  · rw [Cursor.next_close hx.inTag]
    rfl

end Value

/-- Fragments that are given by their characters scan well if the characters do. -/
theorem exists_scan_ofList {fragments written : List (List Char)}
    (h : (scanFrom m d {} 0 fragments).1 = .ok written) :
    ∃ texts, (scan m d (fragments.map String.ofList)).1 = .ok texts := by
  refine ⟨written.map String.ofList, ?_⟩
  rw [scan_fst, map_toList_ofList, h]
  rfl

/-- Markup that scans well ends in text. -/
theorem cursorAt_length_of_scan_singleton {s : String} {whole : List String}
    (h : (scan m d [s]).1 = .ok whole) : cursorAt s.toList s.toList.length = .text := by
  have htexts := scan_ok h
  rw [List.map_singleton] at htexts
  have hcursor : (endFrom m d {} [s.toList] 0).cursor = cursorAt s.toList s.toList.length := by
    rw [endFrom_zero, ScanProgress.cursor_foldl_read, cursorAt, List.take_length]
  rw [← hcursor]
  rcases Cursor.region_cases (endFrom m d {} [s.toList] 0).cursor with htext | hcomment | htag
  · exact Cursor.region_eq_text_iff.mp htext
  · exact absurd hcomment (outside_of_scanFrom htexts)
  · rw [scanFrom_singleton_of_tag 0 htag] at htexts
    cases htexts

section Noted

variable {s name : List Char} {start stop cut last : Nat} {cuts : List Nat}

/-- Behind the last cut the tag ends where it ends in the markup as a whole, and up to there its
placeholders wait. -/
theorem exists_close_behind (hend : cursorAt s s.length = .text)
    (hvalue : UnquotedValue s name start stop) (hstart : start < last) (hstop : last ≤ stop)
    (hopens : OpensNone ((s.take stop).drop last))
    (hlast : '=' ∈ (s.take stop).drop last → behindSign ((s.take stop).drop last) ≠ [])
    (pending : List (List Char)) :
    (s.drop last).foldl Cursor.next .between = .text ∧
    ∃ close, stop ≤ close ∧ EndsTag s close ∧
      (∀ i, stop ≤ i → i ≤ close → cursorAt s i ≠ .text) ∧
      (((s.drop last).take (close - last)).foldl (ScanProgress.read m)
        { cursor := .between, pending }).cursor.inTag = true ∧
      (((s.drop last).take (close - last)).foldl (ScanProgress.read m)
        { cursor := .between, pending }).pending = pending := by
  obtain ⟨c, hc, hbehind⟩ := hvalue.behind
  have hlength : ((s.take stop).drop last).length = stop - last := by
    rw [List.length_drop, List.length_take,
      Nat.min_eq_left (Nat.le_of_lt (List.getElem?_eq_some_iff.mp hc).1)]
  have hinside : cursorAt s stop = .unquoted name := hvalue.inside stop le_rfl hvalue.lt
  have hsplit : s.drop last = (s.take stop).drop last ++ s.drop stop := by
    conv_lhs => rw [← List.take_append_drop stop s]
    have hle := (List.getElem?_eq_some_iff.mp hc).1
    rw [List.drop_append_of_le_length (by rw [List.length_take]; omega)]
  have hwhole : (s.drop stop).foldl Cursor.next (.unquoted name) = .text := by
    rw [cursorAt, List.take_length, ← List.take_append_drop stop s, List.foldl_append] at hend
    rw [← hinside]
    exact hend
  have hvalueText := hvalue.valueText hstart
  rw [hsplit]
  generalize (s.take stop).drop last = value at *
  have hcursor := endsWord_piece hvalueText hopens hlast
  have hnext : ∀ x ∈ (s.drop stop).head?,
      ((value.foldl Cursor.next .between).next x).unnamed
        = ((Cursor.unquoted name).next x).unnamed := by
    intro x hx
    rw [List.head?_drop, hc] at hx
    obtain rfl := Option.some.inj hx
    exact unnamed_next_of_endsWord hcursor hbehind name
  constructor
  · rw [List.foldl_append]
    cases hrest : s.drop stop with
    | nil =>
        rw [hrest] at hwhole
        cases hwhole
    | cons x rest =>
        rw [hrest] at hwhole hnext
        refine Cursor.unnamed_eq_text_iff.mp ?_
        rw [List.foldl_cons, Cursor.unnamed_foldl_next (hnext x rfl) rest]
        exact congrArg Cursor.unnamed hwhole
  · let p : ScanProgress := value.foldl (ScanProgress.read m) { cursor := .between, pending }
    have hp : p.cursor = value.foldl Cursor.next .between := ScanProgress.cursor_foldl_read ..
    have htag : p.cursor.inTag = (Cursor.unquoted name).inTag := by
      rw [hp]
      exact hcursor.inTag
    obtain ⟨k, hk, hends, hall, hin, hpending⟩ := exists_close (m := m) (p := p) (.inl rfl) htag
      (hp ▸ hnext) hwhole
    refine ⟨stop + k, Nat.le_add_right .., ⟨?_, ?_⟩, ?_, ?_, ?_⟩
    · rw [← List.getElem?_drop]
      exact hk
    · rw [cursorAt_add, hinside]
      exact hends
    · intro i hi hclose
      obtain ⟨j, rfl⟩ := Nat.exists_eq_add_of_le hi
      rw [cursorAt_add, hinside]
      exact hall j (Nat.le_of_add_le_add_left hclose)
    · rw [show stop + k - last = value.length + k by omega, List.take_length_add_append,
        List.foldl_append]
      exact hin
    · rw [show stop + k - last = value.length + k by omega, List.take_length_add_append,
        List.foldl_append, hpending]
      exact pending_foldl_read hvalueText.close_not_mem

/-- The first placeholder in a value is noted under the name of the attribute. -/
theorem past_take (hvalue : UnquotedValue s name start stop) (hstart : start < cut)
    (hstop : cut ≤ stop) :
    ({} : ScanState).past m d (s.take cut) = ⟨.between, [spellName d name]⟩ := by
  have hcursor : (s.take cut).foldl Cursor.next .text = .unquoted name :=
    hvalue.inside cut hstop hstart
  rw [ScanState.past, ScanProgress.cursor_foldl_read, hcursor, pending_foldl_read_nil rfl]
  rfl

end Noted

/-- Markup that scans well is cut in an unquoted value of an attribute, and no piece of the value
behind a cut opens a quote or ends with its first equals sign.  Then the pieces scan well too, the
tag ends at the same `>`, and there its placeholders are noted, the first one under the name of the
attribute and each other one under the name that the piece in front of it gives itself.  So all are
noted under the name of the attribute exactly if all these names are spelled like it, and a single
cut always is. -/
theorem pending_unquoted (m : Markers) (d : Dialect) {s : String} {whole : List String}
    {name : List Char} {start stop cut : Nat} {cuts : List Nat}
    (hwhole : (scan m d [s]).1 = .ok whole) (hvalue : UnquotedValue s.toList name start stop)
    (hsorted : (cut :: cuts).Pairwise (· ≤ ·))
    (hinside : ∀ next ∈ cut :: cuts, start < next ∧ next ≤ stop)
    (hopens : ∀ piece ∈ pieces (s.toList.take stop) cut cuts, OpensNone piece)
    (hlast : '=' ∈ (s.toList.take stop).drop (cuts.getLastD cut) →
      behindSign ((s.toList.take stop).drop (cuts.getLastD cut)) ≠ []) :
    (∃ written,
      (scan m d ((pieces s.toList 0 (cut :: cuts)).map String.ofList)).1 = .ok written) ∧
    ∃ close, EndsTag s.toList close ∧ SameTag s.toList start close ∧
      NotedAt m d {} (pieces s.toList 0 (cut :: cuts)) (cuts.length + 1)
        (close - cuts.getLastD cut) ∧
      (progressFrom m d {} (pieces s.toList 0 (cut :: cuts)) (cuts.length + 1)
          (close - cuts.getLastD cut)).pending
        = spellName d name :: ownNames d (s.toList.take stop) cut cuts ∧
      ((progressFrom m d {} (pieces s.toList 0 (cut :: cuts)) (cuts.length + 1)
          (close - cuts.getLastD cut)).pending
        = List.replicate (cuts.length + 1) (spellName d name) ↔
        ∀ own ∈ ownNames d (s.toList.take stop) cut cuts, own = spellName d name) := by
  obtain ⟨hcutStart, hcutStop⟩ := hinside cut (List.mem_cons_self ..)
  obtain ⟨hlastStart, hlastStop⟩ := hinside (cuts.getLastD cut) (List.getLastD_mem_cons ..)
  have hlastOpens := hopens _ (List.mem_of_getElem? (getElem?_pieces (s.toList.take stop) cut cuts))
  obtain ⟨hend, close, hclose, hends, hall, hin, hpending⟩ := exists_close_behind (m := m)
    (cursorAt_length_of_scan_singleton hwhole) hvalue hlastStart hlastStop hlastOpens hlast
    (spellName d name :: ownNames d (s.toList.take stop) cut cuts)
  obtain ⟨hprogress, hscan⟩ := behind_cut (m := m) (d := d) [spellName d name] hsorted
    (fun next hnext => (hinside next (List.mem_cons_of_mem cut hnext)).2)
    (hvalue.valueText hcutStart)
    fun piece hpiece => hopens piece ((List.dropLast_sublist _).mem hpiece)
  have hpast := past_take (m := m) (d := d) hvalue hcutStart hcutStop
  have hpieces : pieces s.toList 0 (cut :: cuts)
      = s.toList.take cut :: pieces s.toList cut cuts := by
    rw [pieces, List.drop_zero]
  have hnoted : progressFrom m d {} (pieces s.toList 0 (cut :: cuts)) (cuts.length + 1)
      (close - cuts.getLastD cut)
      = ((s.toList.drop (cuts.getLastD cut)).take (close - cuts.getLastD cut)).foldl
        (ScanProgress.read m) { toScanState :=
          ⟨.between, spellName d name :: ownNames d (s.toList.take stop) cut cuts⟩ } := by
    rw [hpieces]
    show progressFrom m d (ScanState.past m d _ _) _ _ _ = _
    rw [hpast, hprogress]
    rfl
  rw [← hnoted] at hin hpending
  have hscans : ∃ written,
      (scan m d ((pieces s.toList 0 (cut :: cuts)).map String.ofList)).1 = .ok written := by
    have hcursor : (s.toList.take cut).foldl Cursor.next .text = .unquoted name :=
      hvalue.inside cut hcutStop hcutStart
    have houtside : ((s.toList.take cut).foldl Cursor.next .text).region ≠ .comment := by
      rw [hcursor]
      nofun
    obtain ⟨texts, htexts⟩ := exists_scanFrom_cons (m := m) (d := d)
      (pieces_ne_nil s.toList cut cuts) houtside (hpast ▸ hscan hend 1)
    rw [← hpieces] at htexts
    exact exists_scan_ofList htexts
  have hat : NotedAt m d {} (pieces s.toList 0 (cut :: cuts)) (cuts.length + 1)
      (close - cuts.getLastD cut) := by
    refine ⟨⟨s.toList.drop (cuts.getLastD cut), getElem?_pieces s.toList cut cuts, ?_⟩, ?_⟩
    · rw [List.getElem?_drop, Nat.add_sub_cancel' (hlastStop.trans hclose)]
      exact hends.1
    · refine ScanProgress.closes_eq_true_iff.mpr ⟨⟨rfl, hin⟩, ?_⟩
      rw [hpending]
      exact List.cons_ne_nil _ _
  refine ⟨hscans, close, hends, hvalue.sameTag hclose hall, hat, hpending, ?_⟩
  rw [hpending, List.replicate_succ, List.cons_inj_right, List.eq_replicate_iff]
  exact and_iff_right (length_ownNames ..)

/-- The piece of the value between the two cuts gives itself the name of the attribute. -/
theorem pending_unquoted_repeated :
    ∃ close, EndsTag "<a href=ahref=bhref=c>".toList close ∧
      (progressFrom {} .html {} (["<a href=a", "href=b", "href=c>"].map String.toList) 2
        (close - 15)).pending = ["href".toList, "href".toList] := by
  let s := "<a href=ahref=bhref=c>"
  have hwhole : (scan {} .html [s]).1 = .ok [s] := by decide +kernel
  have hvalue : UnquotedValue s.toList "href".toList 8 21 := by decide +kernel
  have hopens : ∀ piece ∈ pieces (s.toList.take 21) 9 [15], OpensNone piece := by decide +kernel
  have hpieces : pieces s.toList 0 [9, 15]
      = ["<a href=a", "href=b", "href=c>"].map String.toList := by decide +kernel
  have hnames : ownNames .html (s.toList.take 21) 9 [15] = ["href".toList] := by decide +kernel
  have hsorted : [9, 15].Pairwise (· ≤ ·) := by decide
  obtain ⟨-, close, hends, -, -, hpending, -⟩ :=
    pending_unquoted {} .html hwhole hvalue hsorted (by decide) hopens (by decide +kernel)
  refine ⟨close, hends, ?_⟩
  rw [← hpieces]
  exact hpending.trans (by rw [hnames]; decide +kernel)

/-- A placeholder in an unquoted value that is not the first one in it is noted under no name,
although it is in the value as well.  And where a piece opens a quote, the tag does not end where it
ends in the markup as a whole. -/
theorem later_cut_unnamed :
    ((scan {} .html ["<p class=abc>"]).1 = .ok ["<p class=abc>"] ∧
      UnquotedValue "<p class=abc>".toList "class".toList 9 12 ∧
      pieces "<p class=abc>".toList 0 [10, 11] = ["<p class=a", "b", "c>"].map String.toList ∧
      (scan {} .html ["<p class=a", "b", "c>"]).1
        = .ok ["<p class=a", "b", "c data-dtpp-attributes=\"class \">"] ∧
      (progressFrom {} .html {} (["<p class=a", "b", "c>"].map String.toList) 2 1).pending
        = ["class".toList, []]) ∧
    (scan {} .html ["<p a=b='>'>"]).1 = .ok ["<p a=b='>'>"] ∧
      EndsTag "<p a=b='>'>".toList 8 ∧
      pieces "<p a=b='>'>".toList 0 [6] = ["<p a=b", "='>'>"].map String.toList ∧
      (scan {} .html ["<p a=b", "='>'>"]).1
        = .ok ["<p a=b", "='>' data-dtpp-attributes=\"a\">"] := by
  decide +kernel

end LiveTemplate
