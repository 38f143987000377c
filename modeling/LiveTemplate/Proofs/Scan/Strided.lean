import LiveTemplate.Proofs.Scan.StridedTags

/-!
# Scans in strides

A scan in strides comes to the same as a scan: `alike_scanInStrides`.  It follows stride by stride
from `makes_stride`, since a stride ends at one of the cursors between which strides are made
(`Cursor.Rests`), and so does a fragment behind which the scan goes on.  What is known of strides
is known of scans then: `scan_goes_ahead`.
-/

namespace LiveTemplate

set_option autoImplicit false

open Text

variable {m : Markers} {d : Dialect} {index : Nat} {isLast : Bool}

/-! ## Strides over a fragment -/

namespace ReadingHead

variable {h y : ReadingHead} {i : Nat}

/-- The end of a tag is read as it is gone past. -/
theorem makes_close {stop : Nat} (hclose : h.text[stop]? = some '>') :
    (h.put .between stop).Makes m d index isLast (.goesOn (h.close m stop)) := by
  unfold Makes Stride.outcome
  dsimp only
  rw [readOn_cons hclose]
  unfold readOn
  by_cases hpending : h.pending = []
  · have hcloses : ScanProgress.closes
        ⟨⟨.between, h.pending⟩, (h.text.take stop).reverse⟩ '>' = false :=
      Bool.eq_false_iff.mpr fun hcloses =>
        (ScanProgress.closes_eq_true_iff.mp hcloses).2 hpending
    rw [ScanProgress.read_of_not_closes hcloses, close, if_pos hpending]
    dsimp only
    rw [hpending, List.take_add_one, hclose, List.reverse_append]
    exact .refl _
  · have hcloses : ScanProgress.closes
        ⟨⟨.between, h.pending⟩, (h.text.take stop).reverse⟩ '>' = true :=
      ScanProgress.closes_eq_true_iff.mpr ⟨⟨rfl, rfl⟩, hpending⟩
    obtain ⟨front, slash, behind, htext, hstop, hslash, heq⟩ := exists_close m hclose hpending
    have hread : h.text.take stop = front ++ slash := by
      rw [htext, List.append_assoc, ← hstop, List.take_left]
    have hahead : h.text.drop (stop + 1) = behind := by
      rw [← List.drop_drop, htext, List.append_assoc, ← hstop, List.drop_left]
      rfl
    have hnoted : ScanProgress.withNote (m.note h.pending) (front ++ slash).reverse
        = (front ++ m.note h.pending ++ slash).reverse := by
      rcases hslash with rfl | ⟨rfl, hlast⟩
      · simp [ScanProgress.withNote]
      · rw [List.append_nil, List.append_nil, List.reverse_append, ScanProgress.withNote_of_ne]
        intro before hbefore
        rw [List.getLast?_eq_head?_reverse, hbefore] at hlast
        exact absurd rfl hlast
    rw [ScanProgress.read_of_closes hcloses, heq, hread, hahead, hnoted]
    dsimp only
    rw [List.drop_left, List.take_left, List.reverse_concat]
    exact .refl _

end ReadingHead

/-- The cursors between two strides, at which a fragment may begin too. -/
inductive Cursor.Rests : Cursor → Prop
  | text : Rests .text
  | comment : Rests (.comment 0)
  | quoted (quote : Char) (name : List Char) : Rests (.quoted quote name true)
  | between : Rests .between

namespace ReadingHead

variable {h y : ReadingHead} {i : Nat}

/-- From text the reading comes into a comment or behind the name of an element. -/
theorem makes_opening {start : Nat} (hstart : findWord ['<'] h.text i = some start) :
    (h.put .text i).Makes m d index isLast
      (if ['<', '!', '-', '-'].isPrefixOf (h.text.drop start) then
        .goesOn (h.put (.comment 0) (start + 4))
      else .goesOn (h.put .between (passName h.text (start + 1)))) := by
  have hopening : ∀ b, b ≠ '<' → Cursor.text.next b = .text := fun b hb => if_neg hb
  refine (makes_found (z := .opening) hstart hopening rfl rfl).trans ?_
  split <;> rename_i hcomment
  · have hword := List.isPrefixOf_iff_prefix.mp hcomment
    exact makes_word (s := ['!', '-', '-']) (of_prefix_cons hword).2 (by decide)
  · refine makes_passName fun hword => hcomment (List.isPrefixOf_iff_prefix.mpr ?_)
    obtain ⟨behind, hbehind⟩ := prefix_of_findWord hstart
    obtain ⟨more, hmore⟩ := hword
    rw [← List.drop_drop, ← hbehind] at hmore
    exact ⟨more, (congrArg ('<' :: ·) hmore).trans hbehind⟩

/-- A comment is read up to its end. -/
theorem makes_commentStride (h : ReadingHead) (i : Nat) :
    (h.put (.comment 0) i).Makes m d index isLast
      (match findWord ['-', '-', '>'] h.text i with
      | none => h.halt m d index isLast (.comment 0)
      | some stop => .goesOn (h.put .text (stop + 3))) := by
  have hon : (h.put (.comment 0) i).Makes m d index isLast _ := makes_comment (Nat.zero_le 2) rfl
  unfold commentEnd at hon
  unfold findWord
  rw [List.replicate_zero, List.nil_append] at hon
  revert hon
  cases distanceTo ['-', '-', '>'] (h.text.drop i) with
  | none => exact id
  | some far => exact id

/-- A stride is made as the fragment is read on. -/
theorem makes_stride (hrests : h.cursor.Rests) :
    h.Makes m d index isLast (h.stride m d index isLast) := by
  show (h.put h.cursor h.position).Makes m d index isLast (h.stride m d index isLast)
  unfold stride
  generalize h.cursor = x at hrests ⊢
  cases hrests with
  | text =>
      dsimp only
      cases hstart : findWord ['<'] h.text h.position with
      | none => exact makes_unfound hstart (fun b hb => if_neg hb) rfl
      | some start => exact makes_opening hstart
  | comment => exact makes_commentStride h h.position
  | quoted quote name =>
      dsimp only
      cases hstop : findWord [quote] h.text h.position with
      | none => exact makes_unfound hstop (fun b hb => if_neg hb) rfl
      | some stop => exact makes_found hstop (fun b hb => if_neg hb) rfl (if_pos rfl)
  | between =>
      have hon := makes_leaveTag m d index isLast h h.position
      dsimp only
      cases hexit : leaveTag h.text h.position with
      | closes stop =>
          rw [hexit] at hon
          exact hon.trans (makes_close (leaveTag_closes hexit).2)
      | breaksOff cursor =>
          rw [hexit] at hon
          exact hon

theorem rests_stride (hy : h.stride m d index isLast = .goesOn y) : y.cursor.Rests := by
  unfold stride at hy
  split at hy
  · next htext =>
      split at hy
      · cases hy
      · split at hy <;> obtain rfl := Stride.goesOn.inj hy
        · exact .comment
        · exact .between
  · next hcomment =>
      split at hy
      · cases hy
      · obtain rfl := Stride.goesOn.inj hy
        exact .text
  · next hquoted =>
      split at hy
      · cases hy
      · obtain rfl := Stride.goesOn.inj hy
        exact .between
  · next htag =>
      split at hy
      · obtain rfl := Stride.goesOn.inj hy
        unfold close
        split <;> exact .text
      · cases hy

/-- A fragment comes to the same when it is scanned in strides. -/
theorem makes_run (hrests : h.cursor.Rests) :
    h.Makes m d index isLast (.ends (h.run m d index isLast)) := by
  fun_induction run m d index isLast h with
  | case1 h next hstride ih =>
      have hon : h.Makes m d index isLast _ := makes_stride hrests
      rw [hstride] at hon
      exact hon.trans (ih (rests_stride hstride))
  | case2 h outcome hstride => exact hstride ▸ makes_stride hrests

end ReadingHead

/-! ## Scans in strides -/

theorem Cursor.rests_cut (m : Markers) (d : Dialect) (x : Cursor) : (x.cut m d).cursor.Rests := by
  cases x <;> constructor

/-- A fragment that has been scanned leaves the cursor at rest. -/
theorem ScanProgress.rests_finish {p : ScanProgress} {written : List Char} {after : ScanState}
    (h : p.finish m d index isLast = (.ok written, after)) : after.cursor.Rests := by
  by_cases hcomment : p.cursor.region = .comment
  · rw [finish_comment index isLast hcomment] at h
    exact nomatch h
  · cases isLast with
    | false =>
        rw [Plain.finish_of_outside index fun dashes heq => hcomment (heq ▸ rfl)] at h
        obtain rfl := (Prod.mk.inj h).2
        exact Cursor.rests_cut m d p.cursor
    | true =>
        rcases Cursor.region_cases p.cursor with htext | h' | htag
        · rw [finish_text index htext] at h
          obtain rfl := (Prod.mk.inj h).2
          rw [Cursor.region_eq_text_iff.mp htext]
          exact .text
        · exact absurd h' hcomment
        · rw [finish_tag index htag] at h
          exact nomatch h

/-- Fragments come to the same when they are scanned in strides. -/
theorem alike_stridesFrom {state : ScanState} (hrests : state.cursor.Rests) (index : Nat)
    (fragments : List (List Char)) :
    Alike (scanFrom m d state index fragments) (stridesFrom m d state index fragments) := by
  induction fragments generalizing state index with
  | nil => exact .refl _
  | cons fragment rest ih =>
      have hon : Alike (scanFragment m d state index rest.isEmpty fragment)
          (ReadingHead.run m d index rest.isEmpty { toScanState := state, text := fragment }) :=
        ReadingHead.makes_run (h := { toScanState := state, text := fragment }) hrests
      rw [scanFrom, stridesFrom]
      rcases hon.eq_or_error with heq | ⟨e, s, t, hs, ht, hregion, hpending⟩
      · rw [← heq]
        cases hfragment : scanFragment m d state index rest.isEmpty fragment with
        | mk result after =>
            cases result with
            | error e => exact .refl _
            | ok written =>
                have hafter : after.cursor.Rests :=
                  ScanProgress.rests_finish hfragment
                dsimp only
                rcases (ih hafter (index + 1)).eq_or_error with heq |
                  ⟨e, s, t, hs, ht, hregion, hpending⟩
                · rw [heq]
                  exact .refl _
                · rw [hs, ht]
                  exact .error e hregion hpending
      · rw [hs, ht]
        exact .error e hregion hpending

/-- Scans all fragments of a template from the start, in strides. -/
def scanInStrides (m : Markers) (d : Dialect) (fragments : List String) :
    Except TemplateError (List String) × ScanState :=
  match stridesFrom m d {} 0 (fragments.map String.toList) with
  | (.error e, state) => (.error e, state)
  | (.ok written, state) => (.ok (written.map String.ofList), state)

theorem alike_scanInStrides (m : Markers) (d : Dialect) (fragments : List String) :
    Alike (scan m d fragments) (scanInStrides m d fragments) := by
  unfold scan scanInStrides
  have hrests : ({} : ScanState).cursor.Rests := .text
  have hon : Alike (scanFrom m d {} 0 _) _ :=
    alike_stridesFrom hrests 0 (fragments.map String.toList)
  rcases hon.eq_or_error with heq | ⟨e, s, t, hs, ht, hregion, hpending⟩
  · rw [heq]
    exact .refl _
  · rw [hs, ht]
    exact .error e hregion hpending

/-- **Scanning goes ahead on every input.**  A scan comes to the same as one in strides, whose two
loops get ahead with every stride.  Among the attributes of a tag the position grows within the
fragment.  Over a fragment there is less left to be read after every stride, also after one that
has put a note in, and that note stands behind the head.  So both loops come to a stride that ends
them, and whatever is still ahead of the head is an end of the fragment as it was given: what has
been put in is never read. -/
theorem scan_goes_ahead (m : Markers) (d : Dialect) (fragments : List String) :
    Alike (scan m d fragments) (scanInStrides m d fragments) ∧
    (∀ (text : List Char) (position : Nat),
      (∀ next, attributeStride text position = .goesOn next →
        position < next ∧ next ≤ text.length) ∧
      ∃ last, ReachesInTag text position last ∧
        attributeStride text last = .leaves (leaveTag text position)) ∧
    ∀ (index : Nat) (isLast : Bool),
      (∀ x y : ReadingHead, x.stride m d index isLast = .goesOn y → x.GoesAhead y) ∧
      ∀ (state : ScanState) (fragment : List Char),
        let start : ReadingHead := { toScanState := state, text := fragment }
        (∀ x, ReadingHead.Reaches m d index isLast start x →
          x.text.drop x.position <:+ fragment) ∧
        ∃ last, ReadingHead.Reaches m d index isLast start last ∧
          last.stride m d index isLast = .ends (start.run m d index isLast) :=
  ⟨alike_scanInStrides m d fragments,
    fun text position =>
      ⟨fun _ hstride => attributeStride_goesOn hstride, exists_leaves text position⟩,
    fun index isLast => ⟨fun _ _ hstride => ReadingHead.stride_goesOn hstride,
      fun _ _ => ⟨fun _ hreaches => hreaches.suffix, ReadingHead.exists_ends m d index isLast _⟩⟩⟩

/-- At the end of a tag in which a placeholder waits its note goes in front of the slash, and the
head goes behind both.  One character is left of the three that were ahead, though the fragment has
become longer by six. -/
theorem scan_goes_ahead_notedTag :
    let x : ReadingHead := ⟨⟨.between, [['b']]⟩, ['<', 'i', '/', '>', 'x'], 2⟩
    let y : ReadingHead :=
      ⟨⟨.text, []⟩, ['<', 'i', ' ', 'n', '=', '"', 'b', '"', '/', '>', 'x'], 10⟩
    x.stride { attributes := "n" } .html 0 true = .goesOn y ∧ x.GoesAhead y := by
  intro x y
  have hstride : x.stride { attributes := "n" } .html 0 true = .goesOn y := by cbv
  exact ⟨hstride, ((scan_goes_ahead { attributes := "n" } .html []).2.2 0 true).1 x y hstride⟩

end LiveTemplate
