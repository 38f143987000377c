import LiveTemplate.Proofs.Scan.Moments
import LiveTemplate.Proofs.Scan.Strides
import Mathlib.Data.List.TakeWhile

/-!
# Reading on from a head

A stride comes to a place that the reading of a fragment, character by character, comes to as well,
though perhaps at another cursor.  `ReadingHead.Makes` says that a stride makes no difference to
what comes of the fragment, and strides are put together by `Makes.trans`.

Two cursors in a tag need not be told apart where the next character is read alike from both of
them, or where the fragment ends and a placeholder leaves the same there (`makes_between`).  What
strides are made of are characters that leave the cursor where it is (`makes_stretch`), words in
which no tag can end (`makes_word`), and what is looked for: one character (`makes_found`) or the
end of a comment (`makes_comment`).
-/

namespace LiveTemplate

set_option autoImplicit false

open Text

variable {m : Markers} {d : Dialect} {index : Nat} {isLast : Bool}

/-! ## Outcomes that are alike -/

/-- Two outcomes with one result, and the state behind them is one if the scan goes on.  A scan that
has failed may stand elsewhere, but in the same region and with the same placeholders waiting. -/
structure Alike {α : Type} (a b : Except TemplateError α × ScanState) : Prop where
  result : a.1 = b.1
  region : a.2.cursor.region = b.2.cursor.region
  pending : a.2.pending = b.2.pending
  state : ∀ value, a.1 = .ok value → a.2 = b.2

namespace Alike

variable {α : Type} {a b c : Except TemplateError α × ScanState}

theorem refl (a : Except TemplateError α × ScanState) : Alike a a :=
  ⟨rfl, rfl, rfl, fun _ _ => rfl⟩

theorem trans (hab : Alike a b) (hbc : Alike b c) : Alike a c where
  result := hab.result.trans hbc.result
  region := hab.region.trans hbc.region
  pending := hab.pending.trans hbc.pending
  state value h := (hab.state value h).trans (hbc.state value (hab.result ▸ h))

theorem error (e : TemplateError) {s t : ScanState} (hregion : s.cursor.region = t.cursor.region)
    (hpending : s.pending = t.pending) : Alike (α := α) (.error e, s) (.error e, t) :=
  ⟨rfl, hregion, hpending, nofun⟩

/-- Outcomes that are alike differ only behind a defect. -/
theorem eq_or_error (h : Alike a b) : a = b ∨ ∃ e s t, a = (.error e, s) ∧ b = (.error e, t) ∧
    s.cursor.region = t.cursor.region ∧ s.pending = t.pending := by
  obtain ⟨result, s⟩ := a
  obtain ⟨result', t⟩ := b
  obtain rfl : result = result' := h.result
  cases result with
  | error e => exact .inr ⟨e, s, t, rfl, rfl, h.region, h.pending⟩
  | ok value => exact .inl (congrArg _ (h.state value rfl))

end Alike

/-- A fragment ends at one of the cursors as it does at the other one. -/
def Cursor.EndsAs (x y : Cursor) : Prop :=
  x.region = y.region ∧ ∀ m d, x.cut m d = y.cut m d

theorem Cursor.EndsAs.refl (x : Cursor) : x.EndsAs x := ⟨rfl, fun _ _ => rfl⟩

theorem Cursor.EndsAs.alike_finish {x y : Cursor} (h : x.EndsAs y)
    (pending : List (List Char)) (written : List Char) :
    Alike (ScanProgress.finish m d index isLast ⟨⟨x, pending⟩, written⟩)
      (ScanProgress.finish m d index isLast ⟨⟨y, pending⟩, written⟩) := by
  obtain ⟨hregion, hcut⟩ := h
  rcases Cursor.region_cases x with htext | hcomment | htag
  · obtain rfl := Cursor.region_eq_text_iff.mp htext
    obtain rfl := Cursor.region_eq_text_iff.mp hregion.symm
    exact .refl _
  · rw [ScanProgress.finish_comment index isLast hcomment,
      ScanProgress.finish_comment index isLast (hregion ▸ hcomment)]
    exact .error _ hregion rfl
  · cases isLast with
    | true =>
        rw [ScanProgress.finish_tag index htag, ScanProgress.finish_tag index (hregion ▸ htag)]
        exact .error _ hregion rfl
    | false =>
        have houtside : ∀ z : Cursor, z.region = x.region → ∀ dashes, z ≠ .comment dashes := by
          rintro z hz dashes rfl
          rcases htag with htag | htag <;> rw [htag] at hz <;> exact nomatch hz
        rw [Plain.finish_of_outside index (houtside x rfl),
          Plain.finish_of_outside index (houtside y hregion.symm), hcut m d]
        exact .refl _

/-! ## Reading on -/

/-- What comes of reading on from a head, character by character. -/
def ReadingHead.readOn (m : Markers) (d : Dialect) (index : Nat) (isLast : Bool)
    (h : ReadingHead) : Except TemplateError (List Char) × ScanState :=
  ((h.text.drop h.position).foldl (ScanProgress.read m)
    ⟨h.toScanState, (h.text.take h.position).reverse⟩).finish m d index isLast

/-- What comes of a fragment behind a stride. -/
def Stride.outcome (m : Markers) (d : Dialect) (index : Nat) (isLast : Bool) :
    Stride → Except TemplateError (List Char) × ScanState
  | .goesOn h => h.readOn m d index isLast
  | .ends outcome => outcome

/-- The fragment comes to the same whether it is read on or the stride is made. -/
def ReadingHead.Makes (m : Markers) (d : Dialect) (index : Nat) (isLast : Bool) (h : ReadingHead)
    (stride : Stride) : Prop :=
  Alike (h.readOn m d index isLast) (stride.outcome m d index isLast)

/-- The head at another cursor and another position. -/
def ReadingHead.put (h : ReadingHead) (cursor : Cursor) (position : Nat) : ReadingHead :=
  { h with cursor, position }

/-- In front of a character, or of the end of the fragment, a cursor in a tag is as good as one
between attributes. -/
def Cursor.AsBetween (x : Cursor) : Option Char → Prop
  | none => x.EndsAs .between
  | some c => x.next c = Cursor.between.next c

/-- Blanks and slashes set attributes apart. -/
theorem Cursor.between_stays {c : Char} (hc : (isBlank c || c = '/') = true) :
    between.next c = between ∧ (c = '>' → between.inTag = false) := by
  have hopen : c ≠ '>' := fun heq => absurd (heq ▸ hc) (by decide)
  exact ⟨(if_neg hopen).trans (if_pos hc), fun heq => absurd heq hopen⟩

namespace ReadingHead

variable {h y : ReadingHead} {x z : Cursor} {i : Nat} {c : Char} {s : List Char} {stride : Stride}

theorem Makes.refl (h : ReadingHead) : h.Makes m d index isLast (.goesOn h) := Alike.refl _

theorem Makes.trans (hy : h.Makes m d index isLast (.goesOn y))
    (hstride : y.Makes m d index isLast stride) : h.Makes m d index isLast stride :=
  Alike.trans hy hstride

theorem readOn_cons (hc : h.text[i]? = some c) :
    (h.put x i).readOn m d index isLast = ((h.text.drop (i + 1)).foldl (ScanProgress.read m)
      (ScanProgress.read m ⟨⟨x, h.pending⟩, (h.text.take i).reverse⟩ c)).finish
        m d index isLast := by
  obtain ⟨hlt, rfl⟩ := List.getElem?_eq_some_iff.mp hc
  unfold readOn
  dsimp only [put]
  rw [List.drop_eq_getElem_cons hlt, List.foldl_cons]

/-- A character that does not end a tag. -/
theorem makes_char (hc : h.text[i]? = some c) (hopen : c = '>' → x.inTag = false) :
    (h.put x i).Makes m d index isLast (.goesOn (h.put (x.next c) (i + 1))) := by
  have hcloses : ScanProgress.closes ⟨⟨x, h.pending⟩, (h.text.take i).reverse⟩ c = false := by
    refine Bool.eq_false_iff.mpr fun hcloses => ?_
    obtain ⟨⟨hc, htag⟩, -⟩ := ScanProgress.closes_eq_true_iff.mp hcloses
    exact absurd (htag.symm.trans (hopen hc)) nofun
  unfold Makes Stride.outcome
  rw [readOn_cons hc, ScanProgress.read_of_not_closes hcloses]
  unfold readOn
  dsimp only [put]
  rw [List.take_add_one, hc, List.reverse_append]
  exact .refl _

/-- The end of the fragment. -/
theorem readOn_end (hend : h.text[i]? = none) :
    (h.put x i).readOn m d index isLast
      = ScanProgress.finish m d index isLast ⟨⟨x, h.pending⟩, h.text.reverse⟩ := by
  have hle := List.getElem?_eq_none_iff.mp hend
  unfold readOn
  dsimp only [put]
  rw [List.drop_of_length_le hle, List.take_of_length_le hle]
  rfl

theorem makes_end (hend : h.text[i]? = none) (hx : x.EndsAs z) :
    (h.put x i).Makes m d index isLast (h.halt m d index isLast z) := by
  unfold Makes
  rw [readOn_end hend]
  exact hx.alike_finish _ _

theorem of_prefix_cons {rest : List Char} (hs : c :: rest <+: h.text.drop i) :
    h.text[i]? = some c ∧ rest <+: h.text.drop (i + 1) := by
  obtain ⟨behind, hbehind⟩ := hs
  rw [← List.head?_drop, ← List.drop_drop, ← hbehind]
  exact ⟨rfl, List.prefix_append _ _⟩

/-- Characters that leave the cursor where it is. -/
theorem makes_stretch (hs : s <+: h.text.drop i)
    (hstays : ∀ c ∈ s, x.next c = x ∧ (c = '>' → x.inTag = false)) :
    (h.put x i).Makes m d index isLast (.goesOn (h.put x (i + s.length))) := by
  induction s generalizing i with
  | nil => exact .refl _
  | cons c rest ih =>
      obtain ⟨hnext, hopen⟩ := hstays c List.mem_cons_self
      obtain ⟨hc, hrest⟩ := of_prefix_cons hs
      refine (makes_char hc hopen).trans ?_
      rw [hnext, List.length_cons, Nat.add_comm rest.length, ← Nat.add_assoc]
      exact ih hrest fun b hb => hstays b (List.mem_cons_of_mem c hb)

/-- Characters among which no tag can end. -/
theorem makes_word (hs : s <+: h.text.drop i) (hopen : '>' ∉ s) :
    (h.put x i).Makes m d index isLast
      (.goesOn (h.put (s.foldl Cursor.next x) (i + s.length))) := by
  induction s generalizing i x with
  | nil => exact .refl _
  | cons c rest ih =>
      rw [List.mem_cons, not_or] at hopen
      obtain ⟨hc, hrest⟩ := of_prefix_cons hs
      refine (makes_char hc fun heq => absurd heq.symm hopen.1).trans ?_
      rw [List.length_cons, Nat.add_comm rest.length, ← Nat.add_assoc]
      exact ih hrest hopen.2

theorem makes_passOver {P : Char → Bool}
    (hstays : ∀ c, P c = true → x.next c = x ∧ (c = '>' → x.inTag = false)) :
    (h.put x i).Makes m d index isLast (.goesOn (h.put x (passOver P h.text i))) :=
  makes_stretch (List.takeWhile_prefix P) fun c hc => hstays c (List.mem_takeWhile_imp hc)

theorem makes_passBlanks (hstays : ∀ c, isBlank c = true → x.next c = x) :
    (h.put x i).Makes m d index isLast (.goesOn (h.put x (passOver isBlank h.text i))) :=
  makes_passOver fun c hc => ⟨hstays c hc, fun heq => absurd (heq ▸ hc) (by decide)⟩

/-- Whatever is read from between attributes is read from here alike. -/
theorem makes_between (htag : x.inTag = true) (hx : x.AsBetween h.text[i]?) :
    (h.put x i).Makes m d index isLast (.goesOn (h.put .between i)) := by
  unfold Makes Stride.outcome
  dsimp only
  cases hc : h.text[i]? with
  | none =>
      rw [hc] at hx
      rw [readOn_end hc, readOn_end hc]
      exact hx.alike_finish _ _
  | some c =>
      rw [hc] at hx
      have hread : ScanProgress.read m ⟨⟨x, h.pending⟩, (h.text.take i).reverse⟩ c
          = ScanProgress.read m ⟨⟨.between, h.pending⟩, (h.text.take i).reverse⟩ c := by
        unfold ScanProgress.read
        dsimp only
        rw [htag, show x.next c = Cursor.between.next c from hx]
        rfl
      rw [readOn_cons hc, readOn_cons hc, hread]
      exact .refl _

/-! ## What is looked for -/

theorem not_mem_of_distanceTo (hnone : distanceTo [c] s = none) : c ∉ s := by
  induction s with
  | nil => exact List.not_mem_nil
  | cons b rest ih =>
      rw [distanceTo] at hnone
      split at hnone
      · cases hnone
      · next hword =>
          rw [Option.map_eq_none_iff] at hnone
          rw [List.isPrefixOf_iff_prefix, List.singleton_prefix_cons_iff] at hword
          exact List.not_mem_cons_of_ne_of_not_mem hword (ih hnone)

theorem exists_of_distanceTo {k : Nat} (hsome : distanceTo [c] s = some k) :
    ∃ front, front ++ [c] <+: s ∧ front.length = k ∧ c ∉ front := by
  induction s generalizing k with
  | nil => exact nomatch hsome
  | cons b rest ih =>
      rw [distanceTo] at hsome
      split at hsome
      · next hword =>
          obtain rfl := Option.some.inj hsome
          exact ⟨[], List.isPrefixOf_iff_prefix.mp hword, rfl, List.not_mem_nil⟩
      · next hword =>
          obtain ⟨j, hj, rfl⟩ := Option.map_eq_some_iff.mp hsome
          obtain ⟨front, hfront, rfl, hnot⟩ := ih hj
          rw [List.isPrefixOf_iff_prefix, List.singleton_prefix_cons_iff] at hword
          exact ⟨b :: front, List.prefix_cons_inj b |>.mpr hfront, rfl,
            List.not_mem_cons_of_ne_of_not_mem hword hnot⟩

/-- Where only one character moves a cursor outside tags, that character can be looked for. -/
theorem makes_unfound (hnone : findWord [c] h.text i = none) (hx : ∀ b, b ≠ c → x.next b = x)
    (hout : x.inTag = false) :
    (h.put x i).Makes m d index isLast (h.halt m d index isLast x) := by
  have hnot := not_mem_of_distanceTo (Option.map_eq_none_iff.mp hnone)
  have hstays : ∀ b ∈ h.text.drop i, x.next b = x ∧ (b = '>' → x.inTag = false) :=
    fun b hb => ⟨hx b fun heq => hnot (heq ▸ hb), fun _ => hout⟩
  refine (makes_stretch List.prefix_rfl hstays).trans ?_
  refine makes_end (List.getElem?_eq_none_iff.mpr ?_) (.refl x)
  rw [List.length_drop]
  omega

theorem makes_found {stop : Nat} (hstop : findWord [c] h.text i = some stop)
    (hx : ∀ b, b ≠ c → x.next b = x) (hout : x.inTag = false) (hz : x.next c = z) :
    (h.put x i).Makes m d index isLast (.goesOn (h.put z (stop + 1))) := by
  obtain ⟨k, hk, rfl⟩ := Option.map_eq_some_iff.mp hstop
  obtain ⟨front, hfront, rfl, hnot⟩ := exists_of_distanceTo hk
  have hstays : ∀ b ∈ front, x.next b = x ∧ (b = '>' → x.inTag = false) :=
    fun b hb => ⟨hx b fun heq => hnot (heq ▸ hb), fun _ => hout⟩
  have hc := (of_prefix_cons (prefix_of_findWord hstop)).1
  refine (makes_stretch ((List.prefix_append _ _).trans hfront) hstays).trans ?_
  exact hz ▸ makes_char hc fun _ => hout

/-- How far ahead a comment ends of which some dashes have been read. -/
def commentEnd (dashes : Nat) (s : List Char) : Option Nat :=
  (distanceTo ['-', '-', '>'] (List.replicate dashes '-' ++ s)).map (· + 3 - dashes)

theorem distanceTo_cons {word : List Char} (hword : ¬ word <+: c :: s) :
    distanceTo word (c :: s) = (distanceTo word s).map (· + 1) := by
  rw [distanceTo, if_neg (List.isPrefixOf_iff_prefix.not.mpr hword)]

/-- Dashes that neither a dash nor the end of the comment follows count no more. -/
theorem distanceTo_past_dashes {k : Nat} (hk : k ≤ 2) (hdash : c ≠ '-')
    (hclose : ¬(c = '>' ∧ k = 2)) (rest : List Char) :
    distanceTo ['-', '-', '>'] (List.replicate k '-' ++ c :: rest)
      = (distanceTo ['-', '-', '>'] rest).map (· + (k + 1)) := by
  have hhere : distanceTo ['-', '-', '>'] (c :: rest)
      = (distanceTo ['-', '-', '>'] rest).map (· + 1) :=
    distanceTo_cons (by simp [Ne.symm hdash])
  obtain rfl | rfl | rfl : k = 0 ∨ k = 1 ∨ k = 2 := by omega
  · exact hhere
  · show distanceTo _ ('-' :: c :: rest) = _
    rw [distanceTo_cons (by simp [Ne.symm hdash]), hhere, Option.map_map]
    rfl
  · show distanceTo _ ('-' :: '-' :: c :: rest) = _
    rw [distanceTo_cons (by simpa [eq_comm] using hclose),
      distanceTo_cons (by simp [Ne.symm hdash]), hhere, Option.map_map, Option.map_map]
    rfl

/-- One more character of a comment ends it, or counts with the dashes before it. -/
theorem commentEnd_cons {k : Nat} (hk : k ≤ 2) (c : Char) (rest : List Char) :
    (Cursor.comment k).next c = .text ∧ commentEnd k (c :: rest) = some 1 ∨
      ∃ k' ≤ 2, (Cursor.comment k).next c = .comment k' ∧
        commentEnd k (c :: rest) = (commentEnd k' rest).map (· + 1) := by
  unfold commentEnd
  by_cases hdash : c = '-'
  · subst hdash
    refine .inr ⟨if k = 0 then 1 else 2, by split <;> omega, rfl, ?_⟩
    obtain rfl | rfl | rfl : k = 0 ∨ k = 1 ∨ k = 2 := by omega
    · show (distanceTo _ ('-' :: rest)).map _ = ((distanceTo _ ('-' :: rest)).map _).map _
      cases distanceTo ['-', '-', '>'] ('-' :: rest) <;> rfl
    · show (distanceTo _ ('-' :: '-' :: rest)).map _
        = ((distanceTo _ ('-' :: '-' :: rest)).map _).map _
      cases distanceTo ['-', '-', '>'] ('-' :: '-' :: rest) <;> rfl
    · show (distanceTo _ ('-' :: '-' :: '-' :: rest)).map _
        = ((distanceTo _ ('-' :: '-' :: rest)).map _).map _
      rw [distanceTo_cons (by simp)]
      cases distanceTo ['-', '-', '>'] ('-' :: '-' :: rest) <;> rfl
  · by_cases hclose : c = '>' ∧ k = 2
    · obtain ⟨rfl, rfl⟩ := hclose
      exact .inl ⟨rfl, rfl⟩
    · have hnext : (Cursor.comment k).next c = .comment 0 := by
        rw [Cursor.next, if_neg hdash, if_neg (by simpa using hclose)]
      refine .inr ⟨0, Nat.zero_le _, hnext, ?_⟩
      rw [distanceTo_past_dashes hk hdash hclose, List.replicate_zero, List.nil_append,
        Option.map_map, Option.map_map]
      congr 1
      funext far
      simp only [Function.comp_apply]
      omega

/-- The end of a comment of which some dashes have been read. -/
theorem makes_comment {k : Nat} (hk : k ≤ 2) (hs : h.text.drop i = s) :
    (h.put (.comment k) i).Makes m d index isLast
      (match commentEnd k s with
      | none => h.halt m d index isLast (.comment 0)
      | some far => .goesOn (h.put .text (i + far))) := by
  induction s generalizing i k with
  | nil =>
      have hnone : commentEnd k [] = none := by
        obtain rfl | rfl | rfl : k = 0 ∨ k = 1 ∨ k = 2 := by omega
        all_goals rfl
      rw [hnone]
      exact makes_end (List.getElem?_eq_none_iff.mpr (List.drop_eq_nil_iff.mp hs))
        ⟨rfl, fun _ _ => rfl⟩
  | cons c rest ih =>
      have hc : h.text[i]? = some c := by
        rw [← List.head?_drop, hs]
        rfl
      have hrest : h.text.drop (i + 1) = rest := by
        rw [← List.drop_drop, hs]
        rfl
      refine (makes_char hc fun _ => rfl).trans ?_
      obtain ⟨hnext, hfar⟩ | ⟨k', hk', hnext, hfar⟩ := commentEnd_cons hk c rest
      · rw [hnext, hfar]
        exact .refl _
      · rw [hnext, hfar]
        have hon := ih hk' hrest
        revert hon
        cases commentEnd k' rest with
        | none => exact id
        | some far =>
            rw [Option.map_some]
            dsimp only
            rw [Nat.add_right_comm, Nat.add_assoc i]
            exact id

end ReadingHead

end LiveTemplate
