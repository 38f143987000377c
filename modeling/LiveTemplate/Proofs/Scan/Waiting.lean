import LiveTemplate.Proofs.Scan.Moments
import LiveTemplate.Proofs.Plain.Scanned

/-!
# Where placeholders wait

The placeholders of a tag wait for its end among its attributes, outside quotes or in them
(`InAttributes`), and nowhere else: `Waits.read` and `Waits.cut`.  Among the attributes the reading
stands between two values (`isBetweenValues`), in front of one, or in one that is unquoted.
-/

namespace LiveTemplate

set_option autoImplicit false

open Text

variable {m : Markers} {d : Dialect}

/-! ## Among attributes -/

namespace Cursor

/-- Among the attributes of a tag, outside quotes. -/
def amongAttributes : Cursor → Bool
  | .between | .attributeName _ | .afterAttribute _ | .beforeValue _ | .unquoted _ => true
  | _ => false

/-- A cursor in quotes stands in one of the two kinds. -/
def Quotes (x : Cursor) : Prop :=
  ∀ quote name carried, x = .quoted quote name carried → quote = '"' ∨ quote = '\''

/-- In a quoted value. -/
def isQuoted : Cursor → Bool
  | .quoted .. => true
  | _ => false

theorem quotes_of_isQuoted_eq_false {x : Cursor} (h : x.isQuoted = false) : x.Quotes := by
  rintro quote name carried rfl
  exact nomatch h

theorem isQuoted_nextInName (c : Char) : (nextInName c).isQuoted = false := by
  unfold nextInName
  split
  · rfl
  · split <;> rfl

theorem isQuoted_nextBetween (c : Char) : (nextBetween c).isQuoted = false := by
  unfold nextBetween
  repeat' split
  all_goals rfl

/-- Quotes are opened in front of a value only. -/
theorem Quotes.next {x : Cursor} (h : x.Quotes) (c : Char) : (x.next c).Quotes := by
  cases x with
  | quoted quote name carried =>
      rw [Cursor.next]
      split
      · exact quotes_of_isQuoted_eq_false rfl
      · exact h
  | beforeValue name =>
      rw [Cursor.next]
      split
      · exact quotes_of_isQuoted_eq_false rfl
      · split
        · rename_i hquote
          rintro _ _ _ ⟨⟩
          simpa using hquote
        · split <;> exact quotes_of_isQuoted_eq_false rfl
  | elementName => exact quotes_of_isQuoted_eq_false (isQuoted_nextInName c)
  | between => exact quotes_of_isQuoted_eq_false (isQuoted_nextBetween c)
  | text | opening | bang | bangDash | beforeName | attributeName | afterAttribute | unquoted
  | comment =>
      rw [Cursor.next]
      apply quotes_of_isQuoted_eq_false
      repeat' split
      all_goals first | rfl | exact isQuoted_nextInName c | exact isQuoted_nextBetween c

theorem amongAttributes_nextBetween {c : Char} (h : c ≠ '>') :
    (nextBetween c).amongAttributes = true := by
  rw [nextBetween, if_neg h]
  repeat' split
  all_goals rfl

theorem inTag_of_amongAttributes {x : Cursor} (h : x.amongAttributes = true) : x.inTag = true := by
  cases x <;> first | rfl | exact nomatch h

theorem inTag_of_isQuoted {x : Cursor} (h : x.isQuoted = true) : x.inTag = false := by
  cases x <;> first | rfl | exact nomatch h

/-- Among the attributes of a tag, or in a quoted value of one. -/
def InAttributes (x : Cursor) : Prop := x.amongAttributes = true ∨ x.isQuoted = true

theorem InAttributes.ne_text {x : Cursor} (h : x.InAttributes) : x ≠ .text := by
  rintro rfl
  exact h.elim (nomatch ·) (nomatch ·)

/-- A tag stays in its attributes until it ends. -/
theorem InAttributes.next {x : Cursor} {c : Char} (h : x.InAttributes)
    (hc : x.inTag = true → c ≠ '>') : (x.next c).InAttributes := by
  cases x with
  | between => exact .inl (amongAttributes_nextBetween (hc rfl))
  | attributeName | afterAttribute | beforeValue | unquoted =>
      have hclose := hc rfl
      rw [Cursor.next]
      repeat' split
      all_goals first
        | exact .inl rfl
        | exact .inr rfl
        | exact .inl (amongAttributes_nextBetween hclose)
  | quoted =>
      rw [Cursor.next]
      split
      · exact .inl rfl
      · exact .inr rfl
  | text | opening | bang | bangDash | beforeName | elementName | comment =>
      rcases h with h | h <;> cases h

/-- Among the attributes of a tag, and in no value nor in front of one. -/
def isBetweenValues : Cursor → Bool
  | .between | .attributeName _ | .afterAttribute _ => true
  | _ => false

theorem isBetweenValues_nextBetween {c : Char} (hequals : c ≠ '=') (hclose : c ≠ '>') :
    (nextBetween c).isBetweenValues = true := by
  rw [nextBetween, if_neg hclose, if_neg hequals]
  split <;> rfl

/-- A value begins only behind an equals sign. -/
theorem isBetweenValues_next {x : Cursor} {c : Char} (h : x.isBetweenValues = true)
    (hequals : c ≠ '=') (hclose : c ≠ '>') : (x.next c).isBetweenValues = true := by
  cases x with
  | between => exact isBetweenValues_nextBetween hequals hclose
  | attributeName | afterAttribute =>
      rw [Cursor.next, if_neg hequals]
      repeat' split
      all_goals first
        | rfl
        | exact isBetweenValues_nextBetween hequals hclose
  | text | opening | bang | bangDash | beforeName | elementName | beforeValue | unquoted | quoted
  | comment => cases h

theorem amongAttributes_of_isBetweenValues {x : Cursor} (h : x.isBetweenValues = true) :
    x.amongAttributes = true := by
  cases x <;> first | rfl | exact nomatch h

theorem inAttributes_of_isBetweenValues {x : Cursor} (h : x.isBetweenValues = true) :
    x.InAttributes :=
  .inl (amongAttributes_of_isBetweenValues h)

/-- Names leave no value awaited. -/
theorem amongAttributes_foldl_next {x : Cursor} {s : List Char}
    (h : x.isBetweenValues = true ∨ ∃ name, x = .unquoted name)
    (hs : ∀ c ∈ s, c ≠ '=' ∧ c ≠ '>') : (s.foldl Cursor.next x).amongAttributes = true := by
  induction s generalizing x with
  | nil =>
      rcases h with h | ⟨name, rfl⟩
      · exact amongAttributes_of_isBetweenValues h
      · rfl
  | cons c rest ih =>
      obtain ⟨hequals, hclose⟩ := hs c (List.mem_cons_self ..)
      refine ih ?_ fun x hx => hs x (List.mem_cons_of_mem c hx)
      rcases h with h | ⟨name, rfl⟩
      · exact .inl (isBetweenValues_next h hequals hclose)
      · rw [Cursor.next, if_neg hclose]
        split
        · exact .inl rfl
        · exact .inr ⟨name, rfl⟩

theorem endsTag_of_isBetweenValues {x : Cursor} (h : x.isBetweenValues = true) :
    Plain.EndsTag x := by
  cases x <;> trivial

theorem isBetweenValues_of_startsWord {x : Cursor} (h : Plain.StartsWord x) :
    x.isBetweenValues = true := by
  cases x <;> first | rfl | exact h.elim

/-- A slash among attributes belongs to an unquoted value, or to none. -/
theorem next_slash {x : Cursor} (h : x.amongAttributes = true) :
    (x.isBetweenValues = true ∧ x.next '/' = .between) ∨
      ∃ name, (x = .beforeValue name ∨ x = .unquoted name) ∧ x.next '/' = .unquoted name := by
  cases x with
  | between | attributeName | afterAttribute => exact .inl ⟨rfl, rfl⟩
  | beforeValue name => exact .inr ⟨name, .inl rfl, rfl⟩
  | unquoted name => exact .inr ⟨name, .inr rfl, rfl⟩
  | text | opening | bang | bangDash | beforeName | elementName | quoted | comment =>
      exact nomatch h

end Cursor

/-! ## Placeholders -/

/-- Placeholders wait only among the attributes of a tag or in quotes. -/
structure ScanState.Waits (state : ScanState) : Prop where
  quotes : state.cursor.Quotes
  among : state.pending ≠ [] → state.cursor.InAttributes

namespace ScanState.Waits

theorem start : ({} : ScanState).Waits :=
  ⟨Cursor.quotes_of_isQuoted_eq_false rfl, fun h => absurd rfl h⟩

theorem read {p : ScanProgress} (h : p.Waits) (c : Char) : (p.read m c).Waits where
  quotes := by
    rw [ScanProgress.cursor_read]
    exact h.quotes.next c
  among hpending := by
    by_cases hcloses : p.closes c = true
    · rw [ScanProgress.read_of_closes hcloses] at hpending
      exact absurd rfl hpending
    · rw [ScanProgress.read_of_not_closes (Bool.eq_false_iff.mpr hcloses)] at hpending ⊢
      exact (h.among hpending).next fun htag hc =>
        hcloses (ScanProgress.closes_eq_true_iff.mpr ⟨⟨hc, htag⟩, hpending⟩)

theorem cut {p : ScanProgress} (houtside : p.cursor.region ≠ .comment) (h : p.Waits) :
    ScanState.Waits
      ⟨(p.cursor.cut m d).cursor, p.pending ++ (p.cursor.cut m d).queued.toList⟩ := by
  obtain ⟨⟨cursor, pending⟩, written⟩ := p
  cases cursor with
  | text =>
      refine ⟨Cursor.quotes_of_isQuoted_eq_false rfl, fun hpending => ?_⟩
      exact h.among fun hnone => hpending (by rw [show pending = [] from hnone]; rfl)
  | comment dashes => exact absurd rfl houtside
  | quoted quote name carried =>
      refine ⟨?_, fun _ => .inr rfl⟩
      rintro _ _ _ ⟨⟩
      exact h.quotes quote name carried rfl
  | opening | bang | bangDash | beforeName | elementName | between | attributeName
  | afterAttribute | beforeValue | unquoted =>
      exact ⟨Cursor.quotes_of_isQuoted_eq_false rfl, fun _ => .inl rfl⟩

end ScanState.Waits

end LiveTemplate
