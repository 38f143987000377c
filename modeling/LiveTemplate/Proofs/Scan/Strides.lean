import LiveTemplate.Proofs.Plain.Tokens
import Mathlib.Logic.Relation

/-!
# Scanning in strides

A fragment need not be read character by character.  From where a reading head stands, the next `<`,
the end of a comment or the quote that ends a value can be looked for, and in a tag one attribute
can be gone past at once.  `ReadingHead.stride` goes on from one such place to the next, and
`attributeStride` does so among the attributes of a tag.

The fragment under the head does not stay as it is: the end of a tag may put a note in, and the head
has to go past it.  Nothing in the way a stride is made says that it gets ahead at all, since names,
values and what sets them apart may be empty.  The two measures are `attributeStride_goesOn` and
`ReadingHead.stride_goesOn`: among attributes the position grows, and a stride over the fragment
leaves less in front of the head than there was, whatever it has put in behind it.  By these
measures the two loops end, and both are defined by recursion on them.
-/

namespace LiveTemplate

set_option autoImplicit false

open Text

/-! ## Looking ahead in a text -/

/-- The position behind the characters with a property, from a position on. -/
def passOver (P : Char → Bool) (text : List Char) (position : Nat) : Nat :=
  position + ((text.drop position).takeWhile P).length

/-- How far ahead a word stands for the first time. -/
def distanceTo (word : List Char) : List Char → Option Nat
  | [] => none
  | c :: rest =>
    if word.isPrefixOf (c :: rest) then some 0 else (distanceTo word rest).map (· + 1)

/-- The first position, from a position on, at which a word stands. -/
def findWord (word text : List Char) (position : Nat) : Option Nat :=
  (distanceTo word (text.drop position)).map (position + ·)

/-! ## Strides among the attributes of a tag -/

/-- How the reading comes to the end of the attributes of a tag. -/
inductive TagExit
  /-- A `>` stands at the position. -/
  | closes (position : Nat)
  /-- The fragment ends, at a cursor. -/
  | breaksOff (cursor : Cursor)
  deriving DecidableEq, Repr

/-- What comes of a stride among attributes. -/
inductive TagStride
  | goesOn (position : Nat)
  | leaves (exit : TagExit)
  deriving DecidableEq, Repr

/-- Goes past the value of an attribute, which begins at a position. -/
def valueStride (text name : List Char) (position : Nat) : TagStride :=
  match text[position]? with
  | none => .leaves (.breaksOff (.beforeValue name))
  | some c =>
    if c = '"' || c = '\'' then
      match findWord [c] text (position + 1) with
      | none => .leaves (.breaksOff (.quoted c name false))
      | some stop => .goesOn (stop + 1)
    else
      let stop := passOver Html.isBareValueChar text position
      if text.length ≤ stop then .leaves (.breaksOff (.unquoted name)) else .goesOn stop

/-- Goes past an attribute, and past what sets it apart from the one before. -/
def attributeStride (text : List Char) (position : Nat) : TagStride :=
  let start := passOver (fun c => isBlank c || c = '/') text position
  match text[start]? with
  | none => .leaves (.breaksOff .between)
  | some c =>
    if c = '>' then .leaves (.closes start)
    else
      let stop := passOver Html.isAttributeNameChar text start
      let name := (text.drop start).take (stop - start)
      let sign := passOver isBlank text stop
      match text[sign]? with
      | none => .leaves (.breaksOff .between)
      | some c =>
        if c = '=' then valueStride text name (passOver isBlank text (sign + 1)) else .goesOn sign

section Looking

variable {P : Char → Bool} {word text name : List Char} {position i k : Nat} {c : Char}

theorem lt_length_of_getElem? (h : text[i]? = some c) : i < text.length :=
  (List.getElem?_eq_some_iff.mp h).1

theorem le_passOver (P : Char → Bool) (text : List Char) (position : Nat) :
    position ≤ passOver P text position := Nat.le_add_right _ _

theorem drop_passOver (P : Char → Bool) (text : List Char) (position : Nat) :
    text.drop (passOver P text position) = (text.drop position).dropWhile P := by
  rw [passOver, ← List.drop_drop, Plain.drop_length_takeWhile]

theorem take_passOver (P : Char → Bool) (text : List Char) (position : Nat) :
    (text.drop position).take (passOver P text position - position)
      = (text.drop position).takeWhile P := by
  rw [passOver, Nat.add_sub_cancel_left]
  exact (List.prefix_iff_eq_take.mp (List.takeWhile_prefix P)).symm

theorem passOver_le (h : position ≤ text.length) : passOver P text position ≤ text.length := by
  have hle : ((text.drop position).takeWhile P).length ≤ (text.drop position).length :=
    (List.takeWhile_prefix P).length_le
  rw [List.length_drop] at hle
  unfold passOver
  omega

/-- A character that is not passed over does not have the property. -/
theorem not_of_getElem?_passOver (h : text[passOver P text position]? = some c) :
    P c = false := by
  rw [← List.head?_drop, drop_passOver] at h
  have hnot := List.head?_dropWhile_not P (text.drop position)
  rwa [h] at hnot

theorem passOver_succ (hc : text[i]? = some c) (h : P c = true) :
    passOver P text (i + 1) = passOver P text i := by
  rw [← List.head?_drop] at hc
  obtain ⟨rest, hrest⟩ := List.head?_eq_some_iff.mp hc
  rw [passOver, passOver, ← List.drop_drop, hrest, List.takeWhile_cons_of_pos h, List.drop_one,
    List.tail_cons, List.length_cons]
  omega

theorem lt_passOver (hc : text[i]? = some c) (h : P c = true) : i < passOver P text i :=
  passOver_succ hc h ▸ le_passOver P text (i + 1)

/-- Nothing is passed over at the end, or in front of a character without the property. -/
theorem passOver_eq_self (h : ∀ c, text[i]? = some c → P c = false) : passOver P text i = i := by
  unfold passOver
  cases hdrop : text.drop i with
  | nil => rfl
  | cons c rest =>
      have hc : text[i]? = some c := by
        rw [← List.head?_drop, hdrop]
        rfl
      rw [List.takeWhile_cons_of_neg (by simp [h c hc])]
      rfl

theorem passOver_of_getElem? (hc : text[i]? = some c) (h : P c = false) :
    passOver P text i = i :=
  passOver_eq_self fun _ hb => Option.some.inj (hc.symm.trans hb) ▸ h

theorem prefix_of_distanceTo (h : distanceTo word text = some k) :
    k < text.length ∧ word <+: text.drop k := by
  induction text generalizing k with
  | nil => exact nomatch h
  | cons c rest ih =>
      rw [distanceTo] at h
      split at h
      · next hword =>
          obtain rfl := Option.some.inj h
          exact ⟨Nat.succ_pos _, List.isPrefixOf_iff_prefix.mp hword⟩
      · obtain ⟨j, hj, rfl⟩ := Option.map_eq_some_iff.mp h
        obtain ⟨hlt, hword⟩ := ih hj
        exact ⟨Nat.succ_lt_succ hlt, hword⟩

theorem prefix_of_findWord (h : findWord word text position = some k) : word <+: text.drop k := by
  obtain ⟨j, hj, rfl⟩ := Option.map_eq_some_iff.mp h
  rw [← List.drop_drop]
  exact (prefix_of_distanceTo hj).2

/-- A word that is found stands ahead, and in the text as a whole. -/
theorem bounds_of_findWord (h : findWord word text position = some k) :
    position ≤ k ∧ k < text.length ∧ k + word.length ≤ text.length := by
  have hle := (prefix_of_findWord h).length_le
  obtain ⟨j, hj, rfl⟩ := Option.map_eq_some_iff.mp h
  have hlt := (prefix_of_distanceTo hj).1
  rw [List.length_drop] at hlt hle
  omega

/-! ## Strides among attributes go ahead -/

theorem valueStride_goesOn (h : valueStride text name position = .goesOn k) :
    position ≤ k ∧ k ≤ text.length := by
  unfold valueStride at h
  split at h
  · exact nomatch h
  · next c hc =>
      split at h
      · split at h
        · exact nomatch h
        · next stop hstop =>
            obtain rfl := TagStride.goesOn.inj h
            obtain ⟨hle, hlt, -⟩ := bounds_of_findWord hstop
            omega
      · dsimp only at h
        split at h
        · exact nomatch h
        · next hlt =>
            obtain rfl := TagStride.goesOn.inj h
            exact ⟨le_passOver .., Nat.le_of_lt (Nat.not_le.mp hlt)⟩

/-- What is not passed over, does not end the tag and begins no name is an equals sign. -/
theorem eq_equals (hskipped : (isBlank c || c = '/') = false) (hclose : c ≠ '>')
    (hname : ¬ Html.isAttributeNameChar c = true) : c = '=' := by
  simp only [Html.isAttributeNameChar, Bool.not_eq_true', Bool.or_eq_false_iff,
    beq_eq_false_iff_ne, decide_eq_false_iff_not] at hname hskipped
  exact Decidable.byContradiction fun hne => hname ⟨⟨hskipped, hne⟩, hclose⟩

/-- Where nothing is passed over and no name begins there is an equals sign, which leads to a value,
so every stride goes ahead. -/
theorem attributeStride_goesOn (h : attributeStride text position = .goesOn k) :
    position < k ∧ k ≤ text.length := by
  unfold attributeStride at h
  generalize hstart : passOver (fun c => isBlank c || c = '/') text position = start at h
  have hle : position ≤ start := hstart ▸ le_passOver ..
  dsimp only at h
  split at h
  · exact nomatch h
  · next c hc =>
      have hskipped := not_of_getElem?_passOver (hstart ▸ hc)
      split at h
      · exact nomatch h
      · next hclose =>
          have hstop := le_passOver Html.isAttributeNameChar text start
          have hsign := le_passOver isBlank text (passOver Html.isAttributeNameChar text start)
          split at h
          · exact nomatch h
          · next c' hc' =>
              have hlt := lt_length_of_getElem? hc'
              split at h
              · obtain ⟨hbehind, hend⟩ := valueStride_goesOn h
                have hvalue := le_passOver isBlank text
                  (passOver isBlank text (passOver Html.isAttributeNameChar text start) + 1)
                omega
              · next hequals =>
                  obtain rfl := TagStride.goesOn.inj h
                  refine ⟨?_, Nat.le_of_lt hlt⟩
                  by_cases hname : Html.isAttributeNameChar c = true
                  · have := lt_passOver hc hname
                    omega
                  · obtain rfl := eq_equals hskipped hclose hname
                    rw [passOver_of_getElem? hc (by decide),
                      passOver_of_getElem? hc (by decide)] at hc'
                    exact absurd (Option.some.inj (hc'.symm.trans hc)) hequals

theorem valueStride_ne_closes {stop : Nat} :
    valueStride text name position ≠ .leaves (.closes stop) := by
  unfold valueStride
  dsimp only
  repeat' split
  all_goals exact nofun

theorem attributeStride_closes {stop : Nat}
    (h : attributeStride text position = .leaves (.closes stop)) :
    position ≤ stop ∧ text[stop]? = some '>' := by
  unfold attributeStride at h
  dsimp only at h
  split at h
  · exact nomatch h
  · next c hc =>
      split at h
      · next hclose =>
          obtain rfl := TagExit.closes.inj (TagStride.leaves.inj h)
          exact ⟨le_passOver .., hclose ▸ hc⟩
      · split at h
        · exact nomatch h
        · split at h
          · exact absurd h valueStride_ne_closes
          · exact nomatch h

end Looking

/-- Goes on among the attributes up to their end. -/
def leaveTag (text : List Char) (position : Nat) : TagExit :=
  match _h : attributeStride text position with
  | .goesOn next => leaveTag text next
  | .leaves exit => exit
termination_by text.length - position
decreasing_by
  obtain ⟨hlt, hle⟩ := attributeStride_goesOn _h
  omega

/-- The strides among attributes that lead from one position to another one. -/
abbrev ReachesInTag (text : List Char) : Nat → Nat → Prop :=
  Relation.ReflTransGen fun i j => attributeStride text i = .goesOn j

/-- From every position a stride is reached that leaves the attributes. -/
theorem exists_leaves (text : List Char) (position : Nat) :
    ∃ last, ReachesInTag text position last ∧
      attributeStride text last = .leaves (leaveTag text position) := by
  fun_induction leaveTag text position with
  | case1 position next hstride ih =>
      obtain ⟨last, hreach, hleaves⟩ := ih
      exact ⟨last, hreach.head hstride, hleaves⟩
  | case2 position exit hstride => exact ⟨position, .refl, hstride⟩

/-- A tag is closed by a `>` that stands ahead. -/
theorem leaveTag_closes {text : List Char} {position stop : Nat}
    (h : leaveTag text position = .closes stop) : position ≤ stop ∧ text[stop]? = some '>' := by
  fun_induction leaveTag text position with
  | case1 position next hstride ih =>
      obtain ⟨hle, hclose⟩ := ih h
      exact ⟨Nat.le_trans (Nat.le_of_lt (attributeStride_goesOn hstride).1) hle, hclose⟩
  | case2 position exit hstride =>
      subst h
      exact attributeStride_closes hstride

/-! ## Strides over a fragment -/

/-- A fragment as it has been rewritten so far, with the position up to which it has been read. -/
structure ReadingHead extends ScanState where
  text : List Char
  position : Nat := 0

/-- What comes of a stride over a fragment. -/
inductive Stride
  | goesOn (h : ReadingHead)
  | ends (outcome : Except TemplateError (List Char) × ScanState)

namespace ReadingHead

/-- Goes past the `>` of a tag, and past the note that is put in if placeholders wait for it. -/
def close (m : Markers) (h : ReadingHead) (stop : Nat) : ReadingHead :=
  if h.pending = [] then { cursor := .text, text := h.text, position := stop + 1 }
  else
    let place := if 0 < stop ∧ h.text[stop - 1]? = some '/' then stop - 1 else stop
    let note := m.note h.pending
    { cursor := .text
      text := h.text.take place ++ note ++ h.text.drop place
      position := stop + note.length + 1 }

/-- The end of the fragment is reached at a cursor. -/
def halt (m : Markers) (d : Dialect) (index : Nat) (isLast : Bool) (h : ReadingHead)
    (cursor : Cursor) : Stride :=
  .ends (ScanProgress.finish m d index isLast ⟨⟨cursor, h.pending⟩, h.text.reverse⟩)

/-- The position at which the name of an element may begin, behind a slash and blanks. -/
def nameStart (text : List Char) (position : Nat) : Nat :=
  passOver isBlank text (if text[position]? = some '/' then position + 1 else position)

/-- The position behind the name of an element and the blanks that follow it. -/
def passName (text : List Char) (position : Nat) : Nat :=
  passOver isBlank text (passOver isElementNameChar text (nameStart text position))

/-- Goes on to the next place that matters. -/
def stride (m : Markers) (d : Dialect) (index : Nat) (isLast : Bool) (h : ReadingHead) : Stride :=
  match h.cursor with
  | .text =>
    match findWord ['<'] h.text h.position with
    | none => h.halt m d index isLast .text
    | some start =>
      if ['<', '!', '-', '-'].isPrefixOf (h.text.drop start) then
        .goesOn { h with cursor := .comment 0, position := start + 4 }
      else .goesOn { h with cursor := .between, position := passName h.text (start + 1) }
  | .comment _ =>
    match findWord ['-', '-', '>'] h.text h.position with
    | none => h.halt m d index isLast (.comment 0)
    | some stop => .goesOn { h with cursor := .text, position := stop + 3 }
  | .quoted quote name true =>
    match findWord [quote] h.text h.position with
    | none => h.halt m d index isLast (.quoted quote name true)
    | some stop => .goesOn { h with cursor := .between, position := stop + 1 }
  | _ =>
    match leaveTag h.text h.position with
    | .closes stop => .goesOn (h.close m stop)
    | .breaksOff cursor => h.halt m d index isLast cursor

/-- Where placeholders wait at the end of a tag, their note is put in front of it, and in front of
a slash that directly precedes it. -/
theorem exists_close (m : Markers) {x : ReadingHead} {stop : Nat}
    (hclose : x.text[stop]? = some '>') (hpending : x.pending ≠ []) :
    ∃ front slash behind, x.text = front ++ slash ++ ['>'] ++ behind ∧
      (front ++ slash).length = stop ∧ (slash = ['/'] ∨ slash = [] ∧ front.getLast? ≠ some '/') ∧
      x.close m stop = {
        cursor := .text
        text := front ++ m.note x.pending ++ slash ++ ['>'] ++ behind
        position := (front ++ m.note x.pending ++ slash ++ ['>']).length } := by
  obtain ⟨hlt, hget⟩ := List.getElem?_eq_some_iff.mp hclose
  have hdrop : x.text.drop stop = '>' :: x.text.drop (stop + 1) := by
    rw [List.drop_eq_getElem_cons hlt, hget]
  unfold close
  rw [if_neg hpending]
  by_cases hslash : 0 < stop ∧ x.text[stop - 1]? = some '/'
  · rw [if_pos hslash]
    obtain ⟨k, rfl⟩ := Nat.exists_eq_add_of_lt hslash.1
    rw [Nat.zero_add, Nat.add_sub_cancel] at hslash ⊢
    obtain ⟨hklt, hkget⟩ := List.getElem?_eq_some_iff.mp hslash.2
    have hback : x.text.drop k = ['/'] ++ '>' :: x.text.drop (k + 1 + 1) := by
      rw [List.drop_eq_getElem_cons hklt, hkget, ← Nat.zero_add k, ← hdrop]
      rfl
    have hfront : (x.text.take k).length = k := List.length_take_of_le (Nat.le_of_lt hklt)
    refine ⟨x.text.take k, ['/'], x.text.drop (k + 1 + 1), ?_, ?_, .inl rfl, ?_⟩
    · rw [List.append_assoc, List.append_assoc]
      exact (List.take_append_drop k x.text).symm.trans (congrArg _ hback)
    · rw [List.length_append, hfront]
      rfl
    · dsimp only
      rw [hback]
      congr 1
      · simp
      · simp [hfront]
        omega
  · rw [if_neg hslash]
    have hfront : (x.text.take stop).length = stop := List.length_take_of_le (Nat.le_of_lt hlt)
    refine ⟨x.text.take stop, [], x.text.drop (stop + 1), ?_, ?_, .inr ⟨rfl, ?_⟩, ?_⟩
    · rw [List.append_nil, List.append_assoc]
      exact (List.take_append_drop stop x.text).symm.trans (congrArg _ hdrop)
    · rw [List.append_nil, hfront]
    · intro hlast
      rw [List.getLast?_eq_getElem?, hfront] at hlast
      obtain ⟨hlt', hget'⟩ := List.getElem?_eq_some_iff.mp hlast
      rw [hfront] at hlt'
      rw [List.getElem_take] at hget'
      exact hslash ⟨Nat.zero_lt_of_lt hlt', hget' ▸ List.getElem?_eq_getElem _⟩
    · dsimp only
      rw [hdrop]
      congr 1
      · simp
      · simp [hfront]
        omega

/-- From one head to the next one. -/
structure GoesAhead (x y : ReadingHead) : Prop where
  position_le : y.position ≤ y.text.length
  /-- There is less to be read than before, although the text may have become longer. -/
  lt : y.text.length - y.position < x.text.length - x.position
  /-- What is put in is put in behind the head. -/
  put_behind : ∃ front note back, x.text = front ++ back ∧ y.text = front ++ note ++ back ∧
    (front ++ note).length < y.position
  /-- What is ahead was ahead before. -/
  suffix : y.text.drop y.position <:+ x.text.drop x.position

namespace GoesAhead

variable {m : Markers} {x y : ReadingHead} {stop : Nat}

/-- A text that is only read. -/
theorem of_lt (htext : y.text = x.text) (hlt : x.position < y.position)
    (hle : y.position ≤ y.text.length) : GoesAhead x y where
  position_le := hle
  lt := by
    rw [htext] at hle ⊢
    omega
  put_behind := ⟨[], [], x.text, rfl, htext, Nat.zero_lt_of_lt hlt⟩
  suffix := by
    rw [htext, ← Nat.add_sub_cancel' (Nat.le_of_lt hlt), ← List.drop_drop]
    exact List.drop_suffix _ _

/-- The end of a tag, whatever it puts in. -/
theorem close (hle : x.position ≤ stop) (hclose : x.text[stop]? = some '>') :
    GoesAhead x (x.close m stop) := by
  by_cases hpending : x.pending = []
  · unfold ReadingHead.close
    rw [if_pos hpending]
    exact of_lt rfl (Nat.lt_succ_of_le hle) (lt_length_of_getElem? hclose)
  · obtain ⟨front, slash, behind, htext, hstop, -, heq⟩ := exists_close m hclose hpending
    rw [heq]
    generalize m.note x.pending = note
    have hlength : (front ++ slash ++ ['>']).length = stop + 1 := by
      rw [List.length_append, hstop]
      rfl
    refine ⟨(List.prefix_append _ _).length_le, ?_, ⟨front, note, slash ++ ['>'] ++ behind, ?_, ?_,
      ?_⟩, ?_⟩
    · have hx : x.text.length = stop + 1 + behind.length := by
        rw [htext, List.length_append, hlength]
      have hy : (front ++ note ++ slash ++ ['>'] ++ behind).length
          = (front ++ note ++ slash ++ ['>']).length + behind.length := List.length_append
      dsimp only
      rw [hx, hy]
      omega
    · simp [htext]
    · simp
    · simp only [List.length_append, List.length_singleton]
      omega
    · rw [List.drop_left, htext, List.drop_append_of_le_length]
      · exact List.suffix_append _ _
      · exact hlength ▸ Nat.le_succ_of_le hle

end GoesAhead

theorem le_nameStart (text : List Char) (position : Nat) :
    position ≤ nameStart text position := by
  unfold nameStart
  split
  · exact Nat.le_trans (Nat.le_succ _) (le_passOver ..)
  · exact le_passOver ..

theorem nameStart_le {text : List Char} {position : Nat} (h : position ≤ text.length) :
    nameStart text position ≤ text.length := by
  unfold nameStart
  split
  · next hslash => exact passOver_le (lt_length_of_getElem? hslash)
  · exact passOver_le h

theorem le_passName (text : List Char) (position : Nat) : position ≤ passName text position :=
  Nat.le_trans (le_nameStart text position) (Nat.le_trans (le_passOver ..) (le_passOver ..))

theorem passName_le {text : List Char} {position : Nat} (h : position ≤ text.length) :
    passName text position ≤ text.length :=
  passOver_le (passOver_le (nameStart_le h))

/-- Every stride that goes on goes ahead, in whatever state and wherever the head stands. -/
theorem stride_goesOn {m : Markers} {d : Dialect} {index : Nat} {isLast : Bool}
    {x y : ReadingHead} (h : x.stride m d index isLast = .goesOn y) : GoesAhead x y := by
  unfold stride at h
  split at h
  · next htext =>
      split at h
      · exact nomatch h
      · next start hstart =>
          obtain ⟨hle, hlt, -⟩ := bounds_of_findWord hstart
          split at h
          · next hdashes =>
              obtain rfl := Stride.goesOn.inj h
              have hlength := (List.isPrefixOf_iff_prefix.mp hdashes).length_le
              rw [List.length_drop] at hlength
              simp only [List.length_cons, List.length_nil] at hlength
              refine GoesAhead.of_lt rfl ?_ ?_ <;> dsimp only <;> omega
          · obtain rfl := Stride.goesOn.inj h
            have hname := le_passName x.text (start + 1)
            exact GoesAhead.of_lt rfl (by dsimp only; omega) (passName_le hlt)
  · next hcomment =>
      split at h
      · exact nomatch h
      · next stop hstop =>
          obtain rfl := Stride.goesOn.inj h
          obtain ⟨hle, -, hlength⟩ := bounds_of_findWord hstop
          exact GoesAhead.of_lt rfl (by dsimp only; omega) hlength
  · next hquoted =>
      split at h
      · exact nomatch h
      · next stop hstop =>
          obtain rfl := Stride.goesOn.inj h
          obtain ⟨hle, hlt, -⟩ := bounds_of_findWord hstop
          exact GoesAhead.of_lt rfl (Nat.lt_succ_of_le hle) hlt
  · next htag =>
      split at h
      · next stop hstop =>
          obtain rfl := Stride.goesOn.inj h
          obtain ⟨hle, hclose⟩ := leaveTag_closes hstop
          exact GoesAhead.close hle hclose
      · exact nomatch h

/-- Goes on over the fragment up to its end. -/
def run (m : Markers) (d : Dialect) (index : Nat) (isLast : Bool) (x : ReadingHead) :
    Except TemplateError (List Char) × ScanState :=
  match _h : x.stride m d index isLast with
  | .goesOn next => next.run m d index isLast
  | .ends outcome => outcome
termination_by x.text.length - x.position
decreasing_by exact (stride_goesOn _h).lt

/-- The strides over a fragment that lead from one head to another one. -/
abbrev Reaches (m : Markers) (d : Dialect) (index : Nat) (isLast : Bool) :
    ReadingHead → ReadingHead → Prop :=
  Relation.ReflTransGen fun x y => x.stride m d index isLast = .goesOn y

section Reaches

variable {m : Markers} {d : Dialect} {index : Nat} {isLast : Bool} {x y : ReadingHead}

/-- Whatever is put in on the way, what is ahead was ahead from the beginning. -/
theorem Reaches.suffix (h : Reaches m d index isLast x y) :
    y.text.drop y.position <:+ x.text.drop x.position := by
  induction h with
  | refl => exact List.suffix_refl _
  | tail _ hstride ih => exact (stride_goesOn hstride).suffix.trans ih

/-- From every head a stride is reached that ends the fragment. -/
theorem exists_ends (m : Markers) (d : Dialect) (index : Nat) (isLast : Bool) (x : ReadingHead) :
    ∃ last, Reaches m d index isLast x last ∧
      last.stride m d index isLast = .ends (x.run m d index isLast) := by
  fun_induction run m d index isLast x with
  | case1 x next hstride ih =>
      obtain ⟨last, hreach, hends⟩ := ih
      exact ⟨last, hreach.head hstride, hends⟩
  | case2 x outcome hstride => exact ⟨x, .refl, hstride⟩

end Reaches

end ReadingHead

/-- Scans the fragments from the given index on in strides, up to the first defect. -/
def stridesFrom (m : Markers) (d : Dialect) (state : ScanState) (index : Nat) :
    List (List Char) → Except TemplateError (List (List Char)) × ScanState
  | [] => (.ok [], state)
  | fragment :: rest =>
    match ReadingHead.run m d index rest.isEmpty { toScanState := state, text := fragment } with
    | (.error e, state) => (.error e, state)
    | (.ok written, state) =>
      match stridesFrom m d state (index + 1) rest with
      | (.error e, state) => (.error e, state)
      | (.ok others, state) => (.ok (written :: others), state)

end LiveTemplate
