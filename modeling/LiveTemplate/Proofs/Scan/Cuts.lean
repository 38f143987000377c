import LiveTemplate.Proofs.Scan.Accounting
import Mathlib.Data.List.Basic
import Mathlib.Order.Nat

/-!
# Scanning markup in pieces

A scan takes up each fragment where it has left the one before, so a template may be thought of as
one piece of markup and the positions at which its placeholders cut it.  `pieces` are its fragments,
and `markedPieces` says, position by position of the whole markup, what a scan makes of them:
behind a cut in text there is one marker element, and at the end of a tag with cuts in its quoted
values there is one note, which lists the attributes of these cuts in order.

`scan_pieces` says that this is what a scan writes.  The whole markup is read from one cursor, its
pieces from cursors that were carried over cuts; `Cursor.carry` is what the two have in common.
-/

namespace LiveTemplate

set_option autoImplicit false

/-! ## Positions in markup -/

/-- Where the reading of the whole markup stands in front of a position. -/
def cursorAt (s : List Char) (k : Nat) : Cursor := (s.take k).foldl Cursor.next .text

/-- A cut is made in text or in a quoted value. -/
def Cursor.takesCut : Cursor → Bool
  | .text | .quoted .. => true
  | _ => false

/-- The attribute in whose quoted value a position lies, as it is spelled in markers. -/
def nameAt (d : Dialect) (s : List Char) (k : Nat) : Option (List Char) :=
  match cursorAt s k with
  | .quoted _ name _ => some (spellName d name)
  | _ => none

/-- At the position stands the `>` that ends a tag. -/
def EndsTag (s : List Char) (k : Nat) : Prop := s[k]? = some '>' ∧ (cursorAt s k).inTag = true

/-- At the position stands a slash, and directly behind it the `>` that ends a tag. -/
def SlashEndsTag (s : List Char) (k : Nat) : Prop := s[k]? = some '/' ∧ EndsTag s (k + 1)

/-- Between the two positions the reading is never in text. -/
def SameTag (s : List Char) (start k : Nat) : Prop :=
  start ≤ k ∧ ∀ i ≤ k, start ≤ i → cursorAt s i ≠ .text

instance (s : List Char) (k : Nat) : Decidable (EndsTag s k) := inferInstanceAs (Decidable (_ ∧ _))

instance (s : List Char) (k : Nat) : Decidable (SlashEndsTag s k) :=
  inferInstanceAs (Decidable (_ ∧ _))

instance (s : List Char) (start k : Nat) : Decidable (SameTag s start k) :=
  inferInstanceAs (Decidable (_ ∧ _))

/-! ## What is written where -/

/-- The names that the cuts in a tag put on its list, as far as the position. -/
def namesTo (d : Dialect) (s : List Char) (cuts : List Nat) (k : Nat) : List (List Char) :=
  cuts.filterMap fun cut => if SameTag s cut k then nameAt d s cut else none

/-- The note of the tag that ends at a position. -/
def noteOf (m : Markers) (d : Dialect) (s : List Char) (cuts : List Nat) (k : Nat) : List Char :=
  if namesTo d s cuts k = [] then [] else m.note (namesTo d s cuts k)

/-- What is put directly in front of the character at a position: the note of the tag that ends
with it, or with it and the next one. -/
def putBefore (m : Markers) (d : Dialect) (s : List Char) (cuts : List Nat) (k : Nat) :
    List Char :=
  if SlashEndsTag s k then noteOf m d s cuts (k + 1)
  else if EndsTag s k ∧ ¬ (0 < k ∧ SlashEndsTag s (k - 1)) then noteOf m d s cuts k
  else []

/-- The markup from one position to another, with what is put into it. -/
def notedSpan (m : Markers) (d : Dialect) (s : List Char) (cuts : List Nat) (start stop : Nat) :
    List Char :=
  (List.range' start (stop - start)).flatMap fun k => putBefore m d s cuts k ++ s[k]?.toList

/-- The pieces of markup from a position on. -/
def pieces (s : List Char) (start : Nat) : List Nat → List (List Char)
  | [] => [s.drop start]
  | cut :: rest => (s.take cut).drop start :: pieces s cut rest

/-- The pieces of markup from a position on, with what is put into them for all `cuts`. -/
def markedPieces (m : Markers) (d : Dialect) (s : List Char) (cuts : List Nat) (start : Nat) :
    List Nat → List (List Char)
  | [] => [notedSpan m d s cuts start s.length]
  | cut :: rest =>
    (notedSpan m d s cuts start cut ++ if cursorAt s cut = .text then m.element d else [])
      :: markedPieces m d s cuts cut rest

/-! ## Cursors that are carried over cuts -/

namespace Cursor

variable {d : Dialect} {x y : Cursor}

/-- The cursor behind a cut. -/
def carry (d : Dialect) : Cursor → Cursor
  | .quoted quote name _ => .quoted quote (spellName d name) true
  | cursor => cursor

@[simp] theorem inTag_carry (d : Dialect) (x : Cursor) : (x.carry d).inTag = x.inTag := by
  cases x <;> rfl

@[simp] theorem takesCut_carry (d : Dialect) (x : Cursor) :
    (x.carry d).takesCut = x.takesCut := by
  cases x <;> rfl

@[simp] theorem carry_carry (d : Dialect) (x : Cursor) : (x.carry d).carry d = x.carry d := by
  cases x with
  | quoted quote name carried =>
      show quoted quote (spellName d (spellName d name)) true = _
      rw [spellName_spellName]
      rfl
  | _ => rfl

theorem carry_eq_text_iff : x.carry d = .text ↔ x = .text := by
  cases x <;> simp [carry]

/-- A cut leaves the same behind wherever the cursor was carried from. -/
@[simp] theorem cut_carry (m : Markers) (d : Dialect) (x : Cursor) :
    (x.carry d).cut m d = x.cut m d := by
  cases x with
  | quoted quote name carried =>
      show (quoted quote (spellName d name) true).cut m d = _
      simp only [cut, spellName_spellName]
  | _ => rfl

theorem carry_next (d : Dialect) (x : Cursor) (c : Char) :
    ((x.carry d).next c).carry d = (x.next c).carry d := by
  cases x with
  | quoted quote name carried =>
      show ((quoted quote (spellName d name) true).next c).carry d = _
      rw [next, next]
      split
      · rfl
      · exact carry_carry d (.quoted quote name carried)
  | _ => rfl

/-- Cursors that are carried to the same one keep being so. -/
theorem carry_next_congr (h : x.carry d = y.carry d) (c : Char) :
    (x.next c).carry d = (y.next c).carry d := by
  rw [← carry_next, h, carry_next]

/-- A cut in text or in a quoted value leaves the cursor carried. -/
theorem cursor_cut_of_takesCut {m : Markers} (h : x.takesCut = true) :
    (x.cut m d).cursor = x.carry d := by
  cases x with
  | text | quoted => rfl
  | _ => cases h

theorem inTag_of_takesCut (h : x.takesCut = true) : x.inTag = false := by
  cases x with
  | text | quoted => rfl
  | _ => cases h

end Cursor

/-! ## From one position to the next -/

section Positions

variable {m : Markers} {d : Dialect} {s : List Char} {cuts done rest : List Nat} {start k : Nat}

theorem cursorAt_succ {c : Char} (hc : s[k]? = some c) :
    cursorAt s (k + 1) = (cursorAt s k).next c := by
  unfold cursorAt
  rw [List.take_add_one, hc, List.foldl_append]
  rfl

theorem not_endsTag_of_takesCut (h : (cursorAt s k).takesCut = true) : ¬ EndsTag s k := by
  rintro ⟨-, htag⟩
  rw [Cursor.inTag_of_takesCut h] at htag
  cases htag

theorem sameTag_succ (h : start ≤ k) :
    SameTag s start (k + 1) ↔ SameTag s start k ∧ cursorAt s (k + 1) ≠ .text := by
  constructor
  · rintro ⟨-, hall⟩
    exact ⟨⟨h, fun i hi => hall i (by omega)⟩, hall (k + 1) le_rfl (by omega)⟩
  · rintro ⟨⟨-, hall⟩, hlast⟩
    refine ⟨by omega, fun i hi hstart => ?_⟩
    rcases Nat.lt_or_eq_of_le hi with hlt | rfl
    · exact hall i (by omega) hstart
    · exact hlast

/-- In text no cut is on a list. -/
theorem namesTo_text (h : cursorAt s k = .text) : namesTo d s cuts k = [] := by
  refine List.filterMap_eq_nil_iff.mpr fun cut _ => if_neg ?_
  rintro ⟨hle, hall⟩
  exact hall k le_rfl hle h

/-- Outside text the lists stay as they are. -/
theorem namesTo_succ (hdone : ∀ cut ∈ done, cut ≤ k) (h : cursorAt s (k + 1) ≠ .text) :
    namesTo d s done (k + 1) = namesTo d s done k := by
  refine List.filterMap_congr fun cut hcut => ?_
  simp only [sameTag_succ (hdone cut hcut), h, ne_eq, not_false_eq_true, and_true]

/-- Cuts behind a position are on no list there. -/
theorem namesTo_append (hrest : ∀ cut ∈ rest, k < cut) :
    namesTo d s (done ++ rest) k = namesTo d s done k := by
  have hnone : namesTo d s rest k = [] := by
    refine List.filterMap_eq_nil_iff.mpr fun cut hcut => if_neg fun hsame => ?_
    exact absurd hsame.1 (Nat.not_le.mpr (hrest cut hcut))
  show (done ++ rest).filterMap _ = _
  rw [List.filterMap_append]
  exact (congrArg (namesTo d s done k ++ ·) hnone).trans (List.append_nil _)

/-- A cut at a position puts its own attribute on the list. -/
theorem namesTo_cut (m : Markers) (h : (cursorAt s k).takesCut = true) :
    namesTo d s (done ++ [k]) k
      = namesTo d s done k ++ ((cursorAt s k).cut m d).queued.toList := by
  have hcut : namesTo d s [k] k = ((cursorAt s k).cut m d).queued.toList := by
    by_cases htext : cursorAt s k = .text
    · rw [namesTo_text htext, htext]
      rfl
    · have hsame : SameTag s k k :=
        ⟨le_rfl, fun i hi hk => (Nat.le_antisymm hi hk) ▸ htext⟩
      cases hcursor : cursorAt s k with
      | quoted quote name carried => simp [namesTo, hsame, nameAt, hcursor, Cursor.cut]
      | text => exact absurd hcursor htext
      | _ =>
          rw [hcursor] at h
          cases h
  show (done ++ [k]).filterMap _ = _
  rw [List.filterMap_append]
  exact congrArg (namesTo d s done k ++ ·) hcut

theorem notedSpan_self (m : Markers) (d : Dialect) (s : List Char) (cuts : List Nat)
    (start : Nat) : notedSpan m d s cuts start start = [] := by
  unfold notedSpan
  rw [Nat.sub_self]
  rfl

theorem notedSpan_succ {c : Char} (hstart : start ≤ k) (hc : s[k]? = some c) :
    notedSpan m d s cuts start (k + 1)
      = notedSpan m d s cuts start k ++ putBefore m d s cuts k ++ [c] := by
  unfold notedSpan
  rw [Nat.succ_sub hstart, List.range'_concat, List.flatMap_append, Nat.one_mul,
    Nat.add_sub_cancel' hstart, List.flatMap_singleton, hc, List.append_assoc]
  rfl

theorem putBefore_slash (h : SlashEndsTag s k) :
    putBefore m d s cuts k = noteOf m d s cuts (k + 1) := if_pos h

/-- In front of most characters nothing is put. -/
theorem putBefore_eq_nil (hslash : ¬ SlashEndsTag s k)
    (h : EndsTag s k → noteOf m d s cuts k ≠ [] → 0 < k ∧ SlashEndsTag s (k - 1)) :
    putBefore m d s cuts k = [] := by
  rw [putBefore, if_neg hslash]
  split
  · rename_i hends
    by_contra hnote
    exact hends.2 (h hends.1 hnote)
  · rfl

theorem not_slashEndsTag_of_endsTag (h : EndsTag s k) : ¬ SlashEndsTag s k := by
  rintro ⟨hslash, -⟩
  rw [h.1] at hslash
  exact absurd hslash (by decide)

end Positions

/-! ## Reading one piece -/

/-- What holds in front of a position while the piece from `start` on is read: of all `cuts`, the
ones in `done` have been made. -/
structure Reading (m : Markers) (d : Dialect) (s : List Char) (cuts done : List Nat)
    (start k : Nat) (p : ScanProgress) : Prop where
  settled : p.Settled
  carried : p.cursor.carry d = (cursorAt s k).carry d
  pending : p.pending = namesTo d s done k
  written : (∀ i, k = i + 1 → ¬ SlashEndsTag s i) →
    p.written = (notedSpan m d s cuts start k).reverse
  /-- The note in front of a slash is put in only when the `>` behind it is read. -/
  written_slash : ∀ i, k = i + 1 → SlashEndsTag s i →
    start ≤ i ∧ p.written = '/' :: (notedSpan m d s cuts start i).reverse

namespace Reading

variable {m : Markers} {d : Dialect} {s : List Char} {cuts done rest : List Nat} {start k : Nat}
  {p : ScanProgress}

/-- The reading of a piece begins behind a cut. -/
theorem of_start {state : ScanState} (hsettled : state.Settled)
    (hcarried : state.cursor.carry d = (cursorAt s start).carry d)
    (hpending : state.pending = namesTo d s done start)
    (htakes : (cursorAt s start).takesCut = true) :
    Reading m d s cuts done start start { toScanState := state } where
  settled := hsettled
  carried := hcarried
  pending := hpending
  written _ := by
    rw [notedSpan_self]
    rfl
  written_slash i hi hslash := absurd (hi ▸ hslash.2) (not_endsTag_of_takesCut htakes)

theorem inTag (h : Reading m d s cuts done start k p) : p.cursor.inTag = (cursorAt s k).inTag := by
  rw [← Cursor.inTag_carry d, h.carried, Cursor.inTag_carry]

theorem eq_text_iff (h : Reading m d s cuts done start k p) :
    p.cursor = .text ↔ cursorAt s k = .text := by
  rw [← Cursor.carry_eq_text_iff (d := d), h.carried, Cursor.carry_eq_text_iff]

theorem takesCut (h : Reading m d s cuts done start k p) :
    p.cursor.takesCut = (cursorAt s k).takesCut := by
  rw [← Cursor.takesCut_carry d, h.carried, Cursor.takesCut_carry]

theorem cut (h : Reading m d s cuts done start k p) :
    p.cursor.cut m d = (cursorAt s k).cut m d := by
  rw [← Cursor.cut_carry, h.carried, Cursor.cut_carry]

/-- Where no note waits to be put in, everything is written as it stays. -/
theorem written_of_noteOf (h : Reading m d s cuts done start k p)
    (hnone : EndsTag s k → noteOf m d s cuts k = []) :
    p.written = (notedSpan m d s cuts start k).reverse := by
  by_cases hslash : ∃ i, k = i + 1 ∧ SlashEndsTag s i
  · obtain ⟨i, rfl, hi⟩ := hslash
    obtain ⟨hstart, hwritten⟩ := h.written_slash i rfl hi
    rw [hwritten, notedSpan_succ hstart hi.1, putBefore_slash hi, hnone hi.2, List.append_nil,
      List.reverse_append]
    rfl
  · exact h.written fun i hi hends => hslash ⟨i, hi, hends⟩

/-- One more character of the piece, where no cut is made before it. -/
theorem pending_read (h : Reading m d s cuts done start k p) {c : Char} (hc : s[k]? = some c)
    (hdone : ∀ cut ∈ done, cut ≤ k) :
    (p.read m c).pending = namesTo d s done (k + 1) := by
  have hcarried := Cursor.carry_next_congr h.carried c
  rw [← cursorAt_succ hc, ← ScanProgress.cursor_read m p c] at hcarried
  by_cases htext : cursorAt s (k + 1) = .text
  · rw [namesTo_text htext]
    rw [htext] at hcarried
    have hcursor := Cursor.carry_eq_text_iff.mp hcarried
    exact (h.settled.read c).none_ahead (by rw [hcursor]; rfl)
  · have hopen : p.closes c = false := by
      refine Bool.eq_false_iff.mpr fun hcloses => htext ?_
      obtain ⟨⟨rfl, htag⟩, -⟩ := ScanProgress.closes_eq_true_iff.mp hcloses
      rw [h.inTag] at htag
      rw [cursorAt_succ hc, Cursor.next_close htag]
    rw [namesTo_succ hdone htext, ScanProgress.read_of_not_closes hopen]
    exact h.pending

/-- The end of a tag with cuts is written behind its note. -/
theorem written_close (h : Reading m d s cuts done start k p) (hcloses : p.closes '>' = true)
    (hc : s[k]? = some '>') (hstart : start ≤ k) (hnot : ¬ EndsTag s start)
    (hnames : namesTo d s cuts k = namesTo d s done k) :
    (p.read m '>').written = (notedSpan m d s cuts start (k + 1)).reverse := by
  obtain ⟨⟨-, htag⟩, hpending⟩ := ScanProgress.closes_eq_true_iff.mp hcloses
  have hends : EndsTag s k := ⟨hc, h.inTag ▸ htag⟩
  have hnote : noteOf m d s cuts k = m.note p.pending := by
    rw [noteOf, hnames, ← h.pending, if_neg hpending]
  obtain ⟨i, rfl⟩ : ∃ i, k = i + 1 := by
    refine Nat.exists_eq_succ_of_ne_zero ?_
    rintro rfl
    exact hnot ((Nat.le_zero.mp hstart) ▸ hends)
  rw [ScanProgress.read_of_closes hcloses, notedSpan_succ hstart hc]
  show '>' :: ScanProgress.withNote (m.note p.pending) p.written = _
  by_cases hslash : SlashEndsTag s i
  · obtain ⟨hi, hwritten⟩ := h.written_slash i rfl hslash
    rw [putBefore_eq_nil (not_slashEndsTag_of_endsTag hends) fun _ _ => ⟨Nat.succ_pos i, hslash⟩,
      notedSpan_succ hi hslash.1, putBefore_slash hslash, hnote, hwritten]
    simp [ScanProgress.withNote]
  · have hwritten := h.written fun j hj => (Nat.succ.inj hj) ▸ hslash
    have hput : putBefore m d s cuts (i + 1) = m.note p.pending := by
      have hlast : EndsTag s (i + 1) ∧ ¬ (0 < i + 1 ∧ SlashEndsTag s (i + 1 - 1)) :=
        ⟨hends, fun hbefore => hslash hbefore.2⟩
      rw [putBefore, if_neg (not_slashEndsTag_of_endsTag hends), if_pos hlast, hnote]
    have hi : start ≤ i := by
      refine Nat.le_of_lt_succ (Nat.lt_of_le_of_ne hstart ?_)
      rintro rfl
      exact hnot hends
    obtain ⟨c, hbefore⟩ : ∃ c, s[i]? = some c := by
      have hlength := (List.getElem?_eq_some_iff.mp hc).1
      exact ⟨_, List.getElem?_eq_getElem (by omega)⟩
    have hne : c ≠ '/' := by
      rintro rfl
      exact hslash ⟨hbefore, hends⟩
    rw [hput, hwritten, notedSpan_succ hi hbefore]
    simp [ScanProgress.withNote, hne]

/-- One more character of a piece. -/
theorem read (h : Reading m d s cuts done start k p) {c : Char} (hc : s[k]? = some c)
    (hstart : start ≤ k) (hnot : ¬ EndsTag s start) (hcuts : cuts = done ++ rest)
    (hdone : ∀ cut ∈ done, cut ≤ start) (hrest : ∀ cut ∈ rest, k < cut) :
    Reading m d s cuts done start (k + 1) (p.read m c) where
  settled := h.settled.read c
  carried := by
    rw [ScanProgress.cursor_read, cursorAt_succ hc]
    exact Cursor.carry_next_congr h.carried c
  pending := h.pending_read hc fun cut hcut => (hdone cut hcut).trans hstart
  written hplain := by
    have hnames : namesTo d s cuts k = namesTo d s done k := hcuts ▸ namesTo_append hrest
    by_cases hcloses : p.closes c = true
    · obtain ⟨⟨rfl, -⟩, -⟩ := ScanProgress.closes_eq_true_iff.mp hcloses
      exact h.written_close hcloses hc hstart hnot hnames
    · have hnone : EndsTag s k → noteOf m d s cuts k = [] := by
        intro hends
        refine if_pos ?_
        by_contra hpending
        rw [hnames, ← h.pending] at hpending
        obtain rfl : c = '>' := Option.some.inj (hc.symm.trans hends.1)
        exact hcloses (ScanProgress.closes_eq_true_iff.mpr
          ⟨⟨rfl, h.inTag.trans hends.2⟩, hpending⟩)
      rw [ScanProgress.read_of_not_closes (Bool.eq_false_iff.mpr hcloses),
        notedSpan_succ hstart hc, putBefore_eq_nil (hplain k rfl) fun hends hnote =>
          absurd (hnone hends) hnote, List.append_nil, List.reverse_append,
        ← h.written_of_noteOf hnone]
      rfl
  written_slash i hi hslash := by
    obtain rfl : k = i := Nat.succ.inj hi
    obtain rfl : c = '/' := Option.some.inj (hc.symm.trans hslash.1)
    have hopen : p.closes '/' = false := by
      rw [ScanProgress.closes]
      rfl
    rw [ScanProgress.read_of_not_closes hopen, h.written_of_noteOf fun hends =>
      absurd hslash (not_slashEndsTag_of_endsTag hends)]
    exact ⟨hstart, rfl⟩

/-- The characters of a piece, one after another. -/
theorem foldl_read (h : Reading m d s cuts done start start p) {stop : Nat}
    (hstart : start ≤ stop) (hstop : stop ≤ s.length) (hnot : ¬ EndsTag s start)
    (hcuts : cuts = done ++ rest) (hdone : ∀ cut ∈ done, cut ≤ start)
    (hrest : ∀ cut ∈ rest, stop ≤ cut) :
    Reading m d s cuts done start stop
      (((s.take stop).drop start).foldl (ScanProgress.read m) p) := by
  induction stop, hstart using Nat.le_induction with
  | base =>
      rw [List.drop_take_self]
      exact h
  | succ k hk ih =>
      have hc : s[k]? = some s[k] := List.getElem?_eq_getElem hstop
      have hlength : start ≤ (s.take k).length := by
        rw [List.length_take]
        omega
      rw [List.take_add_one, hc, List.drop_append_of_le_length hlength, List.foldl_append]
      exact (ih (by omega) fun cut hcut => (Nat.le_succ k).trans (hrest cut hcut)).read hc hk hnot
        hcuts hdone hrest

end Reading

/-! ## All pieces -/

/-- A fragment that ends in text or in a quoted value ends well. -/
theorem ScanProgress.finish_of_takesCut {m : Markers} {d : Dialect} {p : ScanProgress}
    (h : p.cursor.takesCut = true) (index : Nat) :
    p.finish m d index false = (.ok (p.written.reverse ++ (p.cursor.cut m d).appended),
      ⟨(p.cursor.cut m d).cursor, p.pending ++ (p.cursor.cut m d).queued.toList⟩) := by
  obtain ⟨⟨cursor, pending⟩, written⟩ := p
  cases cursor with
  | text => simp [finish, Cursor.cut]
  | quoted => rfl
  | _ => cases h

/-- What a cut in text or in a quoted value appends. -/
theorem Cursor.appended_of_takesCut {m : Markers} {d : Dialect} {x : Cursor}
    (h : x.takesCut = true) :
    (x.cut m d).appended = if x = .text then m.element d else [] := by
  cases x with
  | text | quoted => rfl
  | _ => cases h

theorem isEmpty_pieces (s : List Char) (start : Nat) (rest : List Nat) :
    (pieces s start rest).isEmpty = false := by
  cases rest <;> rfl

/-- Scanning the pieces from a cut on. -/
theorem scanFrom_pieces {m : Markers} {d : Dialect} {s : List Char} {cuts done rest : List Nat}
    {start index : Nat} {state : ScanState} (hend : cursorAt s s.length = .text)
    (hcuts : cuts = done ++ rest) (hdone : ∀ cut ∈ done, cut ≤ start)
    (hsorted : (start :: rest).Pairwise (· ≤ ·))
    (htakes : ∀ cut ∈ start :: rest, cut ≤ s.length ∧ (cursorAt s cut).takesCut = true)
    (hsettled : state.Settled) (hcarried : state.cursor.carry d = (cursorAt s start).carry d)
    (hpending : state.pending = namesTo d s done start) :
    scanFrom m d state index (pieces s start rest)
      = (.ok (markedPieces m d s cuts start rest), {}) := by
  have hstart := htakes start (List.mem_cons_self ..)
  have hnot := not_endsTag_of_takesCut hstart.2
  have hbegun : Reading m d s cuts done start start { toScanState := state } :=
    .of_start hsettled hcarried hpending hstart.2
  induction rest generalizing start done index state with
  | nil =>
      have hread := hbegun.foldl_read hstart.1 le_rfl hnot hcuts hdone nofun
      rw [List.take_length] at hread
      show scanFrom m d state index [s.drop start] = _
      rw [scanFrom, scanFragment]
      generalize (s.drop start).foldl (ScanProgress.read m) _ = p at hread ⊢
      have htext : p.cursor = .text := hread.eq_text_iff.mpr hend
      have hnone := hread.settled.none_ahead (by rw [htext]; rfl)
      have hwritten := hread.written_of_noteOf fun hends =>
        absurd hends (not_endsTag_of_takesCut (by rw [hend]; rfl))
      obtain ⟨⟨cursor, pending⟩, written⟩ := p
      obtain rfl : cursor = .text := htext
      obtain rfl : pending = [] := hnone
      obtain rfl : written = _ := hwritten
      simp [ScanProgress.finish, scanFrom, markedPieces]
  | cons cut rest ih =>
      have hcut := htakes cut (by simp)
      have hle : start ≤ cut := List.rel_of_pairwise_cons hsorted (by simp)
      have hsortedRest := hsorted.of_cons
      have hrest : ∀ later ∈ cut :: rest, cut ≤ later := by
        intro later hlater
        rcases List.mem_cons.mp hlater with rfl | hlater
        · exact le_rfl
        · exact List.rel_of_pairwise_cons hsortedRest hlater
      have hread := hbegun.foldl_read hle hcut.1 hnot hcuts hdone hrest
      show scanFrom m d state index ((s.take cut).drop start :: pieces s cut rest) = _
      rw [scanFrom, scanFragment, isEmpty_pieces]
      generalize ((s.take cut).drop start).foldl (ScanProgress.read m) _ = p at hread ⊢
      have hptakes : p.cursor.takesCut = true := hread.takesCut.trans hcut.2
      have hwritten := hread.written_of_noteOf fun hends =>
        absurd hends (not_endsTag_of_takesCut hcut.2)
      have hcomment : ∀ dashes, p.cursor ≠ .comment dashes := by
        intro dashes hcursor
        rw [hcursor] at hptakes
        cases hptakes
      have hbehind := hread.settled.cut (m := m) (d := d) hcomment
      have hnextCursor : (p.cursor.cut m d).cursor.carry d = (cursorAt s cut).carry d := by
        rw [Cursor.cursor_cut_of_takesCut hptakes, Cursor.carry_carry, hread.carried]
      have hnextPending : p.pending ++ (p.cursor.cut m d).queued.toList
          = namesTo d s (done ++ [cut]) cut := by
        rw [namesTo_cut m hcut.2, ← hread.cut, ← hread.pending]
      have hnextDone : ∀ earlier ∈ done ++ [cut], earlier ≤ cut := by
        intro earlier hearlier
        rcases List.mem_append.mp hearlier with hearlier | hearlier
        · exact (hdone earlier hearlier).trans hle
        · exact (List.mem_singleton.mp hearlier).le
      have hlater : scanFrom m d _ (index + 1) (pieces s cut rest) = _ :=
        ih (by rw [hcuts, List.append_assoc]; rfl) hnextDone hsortedRest
          (fun later hlater => htakes later (List.mem_cons_of_mem _ hlater)) hbehind hnextCursor
          hnextPending hcut (not_endsTag_of_takesCut hcut.2)
          (.of_start hbehind hnextCursor hnextPending hcut.2)
      rw [ScanProgress.finish_of_takesCut hptakes]
      dsimp only
      rw [hlater, markedPieces, hwritten, List.reverse_reverse, hread.cut,
        Cursor.appended_of_takesCut hcut.2]

/-- Markup that scans well as one fragment ends in text. -/
theorem cursorAt_length_of_scan {m : Markers} {d : Dialect} {s written : List Char}
    {last : ScanState} {index : Nat}
    (h : scanFragment m d {} index true s = (.ok written, last)) :
    cursorAt s s.length = .text := by
  have hcursor := (ScanProgress.finish_last h).1
  rw [ScanProgress.cursor_foldl_read] at hcursor
  rw [cursorAt, List.take_length]
  exact hcursor

/-- Markup that scans well as one fragment scans well in the pieces between cuts in text and in
quoted values, wherever these are and however often they are repeated.  The scan ends in text, and
it puts one element behind each cut in text, one note into each tag with cuts, and nothing else. -/
theorem scan_pieces (m : Markers) (d : Dialect) {s : String} {whole : List String}
    {cuts : List Nat} (hwhole : (scan m d [s]).1 = .ok whole) (hsorted : cuts.Pairwise (· ≤ ·))
    (htakes : ∀ cut ∈ cuts, cut ≤ s.length ∧ (cursorAt s.toList cut).takesCut = true) :
    scan m d ((pieces s.toList 0 cuts).map String.ofList)
      = (.ok ((markedPieces m d s.toList cuts 0 cuts).map String.ofList), ⟨.text, []⟩) := by
  have hend : cursorAt s.toList s.toList.length = .text := by
    unfold scan at hwhole
    rw [List.map_singleton, scanFrom] at hwhole
    cases hfragment : scanFragment m d {} 0 true s.toList with
    | mk result last =>
        cases result with
        | error e =>
            rw [List.isEmpty_nil, hfragment] at hwhole
            cases hwhole
        | ok written => exact cursorAt_length_of_scan hfragment
  have hscan : scanFrom m d {} 0 _ = _ := scanFrom_pieces hend (List.nil_append cuts).symm (by simp)
    (List.pairwise_cons.mpr ⟨fun cut _ => Nat.zero_le cut, hsorted⟩)
    (List.forall_mem_cons.mpr ⟨⟨Nat.zero_le _, rfl⟩, htakes⟩) ScanState.Settled.start rfl rfl
  have hback : ((pieces s.toList 0 cuts).map String.ofList).map String.toList
      = pieces s.toList 0 cuts := by
    rw [List.map_map]
    exact (List.map_congr_left fun t _ => String.toList_ofList).trans (List.map_id _)
  rw [scan, hback, hscan]

/-- A tag with two cuts in a value, which holds a `>`, and one at the end of another value, in front
of a slash, and two cuts at one place in text. -/
theorem scan_pieces_picture :
    scan {} .html ["<img ALT='a>", "b", "c' src=\"", "\"/> ", "", "."] =
      (.ok ["<img ALT='a>", "b", "c' src=\"",
        "\" data-dtpp-attributes=\"alt alt src\"/> <span data-dtpp-nodes=\"\"></span>",
        "<span data-dtpp-nodes=\"\"></span>", "."], ⟨.text, []⟩) := by
  let s := "<img ALT='a>bc' src=\"\"/> ."
  let cuts := [12, 13, 21, 25, 25]
  have hwhole : (scan {} .html [s]).1 = .ok [s] := by decide +kernel
  have hpieces : (pieces s.toList 0 cuts).map String.ofList
      = ["<img ALT='a>", "b", "c' src=\"", "\"/> ", "", "."] := by decide +kernel
  have hmarked : (markedPieces {} .html s.toList cuts 0 cuts).map String.ofList
      = ["<img ALT='a>", "b", "c' src=\"",
        "\" data-dtpp-attributes=\"alt alt src\"/> <span data-dtpp-nodes=\"\"></span>",
        "<span data-dtpp-nodes=\"\"></span>", "."] := by decide +kernel
  rw [← hpieces, scan_pieces {} .html hwhole (by decide) (by decide +kernel), hmarked]

end LiveTemplate
