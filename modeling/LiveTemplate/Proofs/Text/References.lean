import LiveTemplate.Xml.Tree
import Mathlib.Data.List.TakeWhile

/-!
# Decoding references

HTML and SVG decode the references of an attribute value by different rules, but in the same way:
behind each ampersand a reference is read, if there is one, and what it stands for takes its place.
`ReferenceRules` are such rules.  Two things follow from them for both dialects: decoding makes no
text longer (`ReferenceRules.length_decode_le`), and no reference goes beyond a space
(`ReferenceRules.decode_space`), so words between spaces are decoded one by one.
-/

namespace LiveTemplate.Text

set_option autoImplicit false

/-! ## Where a run of characters stops -/

section Stop

variable {p : Char → Bool} {stop : Char}

theorem takeWhile_append_stop (hp : p stop = false) (s rest : List Char) :
    (s ++ stop :: rest).takeWhile p = s.takeWhile p := by
  induction s with
  | nil => exact List.takeWhile_cons_of_neg (by simp [hp])
  | cons c s ih =>
      rw [List.cons_append, List.takeWhile_cons, List.takeWhile_cons, ih]

theorem dropWhile_append_stop (hp : p stop = false) (s rest : List Char) :
    (s ++ stop :: rest).dropWhile p = s.dropWhile p ++ stop :: rest := by
  induction s with
  | nil => exact List.dropWhile_cons_of_neg (by simp [hp])
  | cons c s ih =>
      rw [List.cons_append, List.dropWhile_cons, List.dropWhile_cons, ih]
      split <;> rfl

/-- A text that holds a character is cut in two at its first occurrence. -/
theorem eq_takeWhile_append_of_mem {s : List Char} (h : stop ∈ s) :
    s = s.takeWhile (· != stop) ++ stop :: (s.dropWhile (· != stop)).tail := by
  cases hdrop : s.dropWhile (· != stop) with
  | nil =>
      have hall := List.dropWhile_eq_nil_iff.mp hdrop stop h
      simp at hall
  | cons c rest =>
      have hhead := List.head?_dropWhile_not (· != stop) s
      rw [hdrop] at hhead
      obtain rfl : c = stop := by simpa using hhead
      rw [List.tail_cons, ← hdrop, List.takeWhile_append_dropWhile]

end Stop

/-! ## Rules of references -/

/-- Rules by which references are decoded.  What a reference stands for, together with the text
behind it, is no longer than the reference with its ampersand, and a space is no part of one. -/
structure ReferenceRules where
  /-- Reads the reference that follows an ampersand: what it stands for, and the text behind it. -/
  read? : List Char → Option (List Char × List Char)
  /-- What is left of an ampersand that begins no reference. -/
  stray : List Char
  /-- What any other character stands for. -/
  plain : Char → Char
  shorter : ∀ {s decoded behind : List Char}, read? s = some (decoded, behind) →
    behind.length ≤ s.length ∧ decoded.length + behind.length ≤ s.length + 1
  before_space : ∀ s rest : List Char, read? (s ++ ' ' :: rest)
    = (read? s).map fun (decoded, behind) => (decoded, behind ++ ' ' :: rest)
  stray_length : stray.length ≤ 1
  plain_space : plain ' ' = ' '

namespace ReferenceRules

variable (rules : ReferenceRules)

/-- Decodes at most `count` references or characters of a text. -/
def decodeUpTo : Nat → List Char → List Char
  | 0, s => s
  | _, [] => []
  | count + 1, c :: r =>
    if c = '&' then
      match rules.read? r with
      | some (decoded, behind) => decoded ++ decodeUpTo count behind
      | none => rules.stray ++ decodeUpTo count r
    else rules.plain c :: decodeUpTo count r

/-- The text with its references decoded. -/
def decode (s : List Char) : List Char := rules.decodeUpTo s.length s

variable {rules}

theorem decodeUpTo_nil (count : Nat) : rules.decodeUpTo count [] = [] := by
  cases count <;> rfl

theorem decodeUpTo_reference {count : Nat} {r decoded behind : List Char}
    (h : rules.read? r = some (decoded, behind)) :
    rules.decodeUpTo (count + 1) ('&' :: r) = decoded ++ rules.decodeUpTo count behind := by
  rw [decodeUpTo, if_pos rfl, h]

theorem decodeUpTo_stray {count : Nat} {r : List Char} (h : rules.read? r = none) :
    rules.decodeUpTo (count + 1) ('&' :: r) = rules.stray ++ rules.decodeUpTo count r := by
  rw [decodeUpTo, if_pos rfl, h]

theorem decodeUpTo_plain {count : Nat} {c : Char} {r : List Char} (h : c ≠ '&') :
    rules.decodeUpTo (count + 1) (c :: r) = rules.plain c :: rules.decodeUpTo count r := by
  rw [decodeUpTo, if_neg h]

theorem length_decodeUpTo_le (count : Nat) (s : List Char) :
    (rules.decodeUpTo count s).length ≤ s.length := by
  induction count generalizing s with
  | zero => exact Nat.le_refl _
  | succ count ih =>
      cases s with
      | nil => exact Nat.le_refl _
      | cons c r =>
          by_cases hc : c = '&'
          · subst hc
            cases hread : rules.read? r with
            | none =>
                have hr := ih r
                have hstray := rules.stray_length
                rw [decodeUpTo_stray hread, List.length_append, List.length_cons]
                omega
            | some found =>
                have hshorter := rules.shorter hread
                have hbehind := ih found.2
                rw [decodeUpTo_reference hread, List.length_append, List.length_cons]
                omega
          · rw [decodeUpTo_plain hc, List.length_cons, List.length_cons]
            exact Nat.succ_le_succ (ih r)

/-- Decoding makes no text longer. -/
theorem length_decode_le (s : List Char) : (rules.decode s).length ≤ s.length :=
  length_decodeUpTo_le s.length s

/-- Once the count is large enough it does not matter. -/
theorem decodeUpTo_eq {count more : Nat} {s : List Char} (hcount : s.length ≤ count)
    (hmore : s.length ≤ more) : rules.decodeUpTo count s = rules.decodeUpTo more s := by
  induction count generalizing more s with
  | zero =>
      obtain rfl := List.eq_nil_of_length_eq_zero (Nat.le_zero.mp hcount)
      rw [decodeUpTo_nil, decodeUpTo_nil]
  | succ count ih =>
      cases s with
      | nil => rw [decodeUpTo_nil, decodeUpTo_nil]
      | cons c r =>
          cases more with
          | zero => exact absurd hmore (Nat.not_succ_le_zero _)
          | succ more =>
              have hr := Nat.le_of_succ_le_succ hcount
              have hr' := Nat.le_of_succ_le_succ hmore
              by_cases hc : c = '&'
              · subst hc
                cases hread : rules.read? r with
                | none => rw [decodeUpTo_stray hread, decodeUpTo_stray hread, ih hr hr']
                | some found =>
                    have hbehind := (rules.shorter hread).1
                    rw [decodeUpTo_reference hread, decodeUpTo_reference hread,
                      ih (hbehind.trans hr) (hbehind.trans hr')]
              · rw [decodeUpTo_plain hc, decodeUpTo_plain hc, ih hr hr']

/-- No reference goes beyond a space. -/
theorem decodeUpTo_space {count : Nat} {s rest : List Char}
    (hcount : (s ++ ' ' :: rest).length ≤ count) :
    rules.decodeUpTo count (s ++ ' ' :: rest)
      = rules.decodeUpTo count s ++ ' ' :: rules.decodeUpTo count rest := by
  induction count generalizing s with
  | zero => simp at hcount
  | succ count ih =>
      rw [List.length_append, List.length_cons] at hcount
      cases s with
      | nil =>
          rw [List.nil_append, decodeUpTo_plain (by decide), rules.plain_space, decodeUpTo_nil,
            List.nil_append]
          exact congrArg (' ' :: ·) (decodeUpTo_eq (by simp at hcount; omega)
            (by simp at hcount; omega))
      | cons c r =>
          rw [List.length_cons] at hcount
          have hrest : rules.decodeUpTo count rest = rules.decodeUpTo (count + 1) rest :=
            decodeUpTo_eq (by omega) (by omega)
          rw [List.cons_append]
          by_cases hc : c = '&'
          · subst hc
            cases hread : rules.read? r with
            | none =>
                have hspace : rules.read? (r ++ ' ' :: rest) = none := by
                  rw [rules.before_space, hread]
                  rfl
                rw [decodeUpTo_stray hread, decodeUpTo_stray hspace,
                  ih (by simp; omega), hrest, List.append_assoc]
            | some found =>
                have hspace : rules.read? (r ++ ' ' :: rest)
                    = some (found.1, found.2 ++ ' ' :: rest) := by
                  rw [rules.before_space, hread]
                  rfl
                have hbehind := (rules.shorter hread).1
                rw [decodeUpTo_reference hread, decodeUpTo_reference hspace,
                  ih (by simp; omega), hrest, List.append_assoc]
          · rw [decodeUpTo_plain hc, decodeUpTo_plain hc, ih (by simp; omega), hrest]
            rfl

/-- Words on both sides of a space are decoded apart. -/
theorem decode_space (s rest : List Char) :
    rules.decode (s ++ ' ' :: rest) = rules.decode s ++ ' ' :: rules.decode rest := by
  have hs : rules.decodeUpTo (s ++ ' ' :: rest).length s = rules.decode s :=
    decodeUpTo_eq (by simp) (Nat.le_refl _)
  have hrest : rules.decodeUpTo (s ++ ' ' :: rest).length rest = rules.decode rest :=
    decodeUpTo_eq (by simp; omega) (Nat.le_refl _)
  rw [decode, decodeUpTo_space (Nat.le_refl _), hs, hrest]

end ReferenceRules

/-! ## Numbers -/

/-- Reads digits of a base: the number, and the text behind them. -/
def readDigits? (base : Nat) (p : Char → Bool) (s : List Char) : Option (Nat × List Char) :=
  if (s.takeWhile p).isEmpty then none
  else some (numberOfDigits base (s.takeWhile p), s.dropWhile p)

theorem length_of_readDigits? {base n : Nat} {p : Char → Bool} {s behind : List Char}
    (h : readDigits? base p s = some (n, behind)) : behind.length ≤ s.length := by
  rw [readDigits?] at h
  split at h
  · exact nomatch h
  · cases h
    exact List.length_dropWhile_le p s

theorem readDigits?_space {p : Char → Bool} (hp : p ' ' = false) (base : Nat)
    (s rest : List Char) : readDigits? base p (s ++ ' ' :: rest)
      = (readDigits? base p s).map fun (n, behind) => (n, behind ++ ' ' :: rest) := by
  rw [readDigits?, readDigits?, takeWhile_append_stop hp, dropWhile_append_stop hp]
  split <;> rfl

/-- A number is hexadecimal behind an x, and else decimal. -/
theorem readNumber?_eq (s : List Char) :
    readNumber? s = if s.head? = some 'x' ∨ s.head? = some 'X'
      then readDigits? 16 isHexDigit s.tail else readDigits? 10 Char.isDigit s := by
  unfold readNumber?
  split
  · rfl
  · rfl
  · rename_i hx hX
    have hdecimal : ¬ (s.head? = some 'x' ∨ s.head? = some 'X') := by
      cases s with
      | nil => exact fun h => h.elim (nomatch ·) (nomatch ·)
      | cons c r =>
          rintro (h | h)
          · exact hx r (congrArg (· :: r) (Option.some.inj h))
          · exact hX r (congrArg (· :: r) (Option.some.inj h))
    rw [if_neg hdecimal]
    rfl

theorem length_of_readNumber? {s behind : List Char} {n : Nat}
    (h : readNumber? s = some (n, behind)) : behind.length ≤ s.length := by
  rw [readNumber?_eq] at h
  split at h
  · exact (length_of_readDigits? h).trans (by simp)
  · exact length_of_readDigits? h

theorem readNumber?_space (s rest : List Char) :
    readNumber? (s ++ ' ' :: rest)
      = (readNumber? s).map fun (n, behind) => (n, behind ++ ' ' :: rest) := by
  rw [readNumber?_eq, readNumber?_eq]
  cases s with
  | nil => rfl
  | cons c r =>
      rw [List.cons_append, List.head?_cons, List.head?_cons]
      split
      · exact readDigits?_space rfl 16 r rest
      · exact readDigits?_space rfl 10 (c :: r) rest

/-! ## The rules of HTML -/

theorem length_valueTextOfNumber_le (n : Nat) : (valueTextOfNumber n).length ≤ 1 := by
  unfold valueTextOfNumber
  repeat' split
  all_goals simp

theorem length_of_longestBareName? {word rest : List Char} {limit : Nat} {c : Char}
    (h : longestBareName? word limit = some (c, rest)) : rest.length ≤ word.length := by
  fun_induction longestBareName? word limit with
  | case1 | case2 => cases h
  | case3 limit _ c hname =>
      cases h
      rw [List.length_drop]
      exact Nat.sub_le ..
  | case4 limit _ hname ih => exact ih h

theorem length_valueTextOfWord_le (word : List Char) (closed : Bool) :
    (valueTextOfWord word closed).length ≤ word.length + 1 + (if closed then 1 else 0) := by
  have hclose : (if closed then [';'] else []).length = if closed then 1 else 0 := by
    cases closed <;> rfl
  unfold valueTextOfWord
  dsimp only
  split
  · exact Nat.le_add_right_of_le (Nat.succ_le_succ (Nat.zero_le _))
  · split
    · rename_i hlongest
      have hrest := length_of_longestBareName? hlongest
      rw [List.length_append, List.length_cons, hclose]
      omega
    · rw [List.length_append, List.length_cons, hclose]

/-- The word that follows an ampersand. -/
def referenceWord (s : List Char) : List Char := (s.takeWhile isReferenceWordChar).take 32

theorem length_referenceWord_le (s : List Char) : (referenceWord s).length ≤ s.length := by
  unfold referenceWord
  exact (List.take_prefix _ _).length_le.trans (List.takeWhile_prefix _).length_le

/-- A reference by a word, of which `s` follows the ampersand. -/
def readWordReference? (s : List Char) : Option (List Char × List Char) :=
  if (referenceWord s).isEmpty then none
  else
    match s.drop (referenceWord s).length with
    | ';' :: r => some (valueTextOfWord (referenceWord s) true, r)
    | r => some (valueTextOfWord (referenceWord s) false, r)

/-- A text without a semicolon at its beginning. -/
def pastSemicolon (s : List Char) : List Char :=
  match s with
  | ';' :: r => r
  | _ => s

theorem length_pastSemicolon_le (s : List Char) : (pastSemicolon s).length ≤ s.length := by
  unfold pastSemicolon
  split
  · exact Nat.le_succ _
  · exact Nat.le_refl _

theorem pastSemicolon_space (s rest : List Char) :
    pastSemicolon (s ++ ' ' :: rest) = pastSemicolon s ++ ' ' :: rest := by
  cases s with
  | nil => rfl
  | cons c r =>
      by_cases hc : c = ';'
      · subst hc
        rfl
      · simp [pastSemicolon, hc]

theorem readValueReference?_eq (s : List Char) :
    readValueReference? s = if s.head? = some '#'
      then (readNumber? s.tail).map fun (n, behind) => (valueTextOfNumber n, pastSemicolon behind)
      else readWordReference? s := by
  unfold readValueReference?
  split
  · rename_i r
    rw [List.head?_cons, if_pos rfl, List.tail_cons]
    cases readNumber? r with
    | none => rfl
    | some found =>
        obtain ⟨n, behind⟩ := found
        cases behind with
        | nil => rfl
        | cons c behind =>
            by_cases hc : c = ';'
            · subst hc
              rfl
            · simp [pastSemicolon, hc]
  · rename_i hnumber
    have hword : s.head? ≠ some '#' := by
      cases s with
      | nil => simp
      | cons c r => exact fun h => hnumber r (congrArg (· :: r) (Option.some.inj h))
    rw [if_neg hword]
    rfl

theorem readWordReference?_space (s rest : List Char) :
    readWordReference? (s ++ ' ' :: rest)
      = (readWordReference? s).map fun (decoded, behind) => (decoded, behind ++ ' ' :: rest) := by
  have hword : referenceWord (s ++ ' ' :: rest) = referenceWord s := by
    rw [referenceWord, takeWhile_append_stop rfl]
    rfl
  rw [readWordReference?, readWordReference?, hword,
    List.drop_append_of_le_length (length_referenceWord_le s)]
  split
  · rfl
  · cases s.drop (referenceWord s).length with
    | nil => rfl
    | cons c r =>
        by_cases hc : c = ';'
        · subst hc
          rfl
        · simp [hc]

theorem length_of_readWordReference? {s decoded behind : List Char}
    (h : readWordReference? s = some (decoded, behind)) :
    behind.length ≤ s.length ∧ decoded.length + behind.length ≤ s.length + 1 := by
  have hword := length_referenceWord_le s
  have hdrop := List.length_drop (i := (referenceWord s).length) (l := s)
  rw [readWordReference?] at h
  split at h
  · exact nomatch h
  · split at h
    · rename_i r heq
      cases h
      have hdecoded := length_valueTextOfWord_le (referenceWord s) true
      rw [heq, List.length_cons] at hdrop
      simp only [if_true] at hdecoded
      omega
    · cases h
      have hdecoded := length_valueTextOfWord_le (referenceWord s) false
      simp only [Bool.false_eq_true, if_false] at hdecoded
      omega

/-- References in attribute values of HTML. -/
def htmlReferences : ReferenceRules where
  read? := readValueReference?
  stray := ['&']
  plain := id
  shorter {s decoded behind} h := by
    rw [readValueReference?_eq] at h
    split at h
    · obtain ⟨⟨n, r⟩, hnumber, hfound⟩ := Option.map_eq_some_iff.mp h
      cases hfound
      have hr := length_of_readNumber? hnumber
      have hdecoded := length_valueTextOfNumber_le n
      have hbehind := length_pastSemicolon_le r
      rw [List.length_tail] at hr
      omega
    · exact length_of_readWordReference? h
  before_space s rest := by
    rw [readValueReference?_eq, readValueReference?_eq]
    cases s with
    | nil => rfl
    | cons c r =>
        rw [List.cons_append, List.head?_cons, List.head?_cons]
        split
        · rw [List.tail_cons, List.tail_cons, readNumber?_space]
          cases readNumber? r with
          | none => rfl
          | some found => simp [pastSemicolon_space]
        · exact readWordReference?_space (c :: r) rest
  stray_length := Nat.le_refl 1
  plain_space := rfl

theorem decodeValue_eq (s : List Char) : decodeValue s = htmlReferences.decode s := by
  have hall : ∀ (count : Nat) (s : List Char),
      decodeValueUpTo count s = htmlReferences.decodeUpTo count s := by
    intro count s
    induction count generalizing s with
    | zero => cases s <;> rfl
    | succ count ih =>
        cases s with
        | nil => rfl
        | cons c r =>
            by_cases hc : c = '&'
            · subst hc
              rw [decodeValueUpTo]
              cases hread : readValueReference? r with
              | none =>
                  have hstray : htmlReferences.decodeUpTo (count + 1) ('&' :: r)
                      = ['&'] ++ htmlReferences.decodeUpTo count r :=
                    ReferenceRules.decodeUpTo_stray hread
                  rw [hstray, ← ih]
                  rfl
              | some found =>
                  have hfound : htmlReferences.decodeUpTo (count + 1) ('&' :: r)
                      = found.1 ++ htmlReferences.decodeUpTo count found.2 :=
                    ReferenceRules.decodeUpTo_reference hread
                  rw [hfound, ← ih]
            · rw [ReferenceRules.decodeUpTo_plain hc, ← ih, decodeValueUpTo]
              · rfl
              · exact fun h => hc h
  exact hall s.length s

/-! ## The rules of SVG -/

theorem readPlainName?_space (s rest : List Char) : Xml.readPlainName? (s ++ ' ' :: rest)
    = (Xml.readPlainName? s).map fun (name, behind) => (name, behind ++ ' ' :: rest) := by
  cases s with
  | nil => rfl
  | cons c r =>
      rw [List.cons_append, Xml.readPlainName?, Xml.readPlainName?, takeWhile_append_stop rfl,
        dropWhile_append_stop rfl]
      split <;> rfl

theorem length_of_readPlainName? {s behind : List Char} {name : String}
    (h : Xml.readPlainName? s = some (name, behind)) : behind.length ≤ s.length := by
  cases s with
  | nil => exact nomatch h
  | cons c r =>
      rw [Xml.readPlainName?] at h
      split at h
      · cases h
        exact (List.length_dropWhile_le _ r).trans (Nat.le_succ _)
      · exact nomatch h

/-- A reference ends with a semicolon, behind its number or its name. -/
def closed? {α : Type} (character : α → Option Char) :
    Option (α × List Char) → Option (Option Char × List Char)
  | some (x, ';' :: behind) => some (character x, behind)
  | _ => none

theorem closed?_space {α : Type} (character : α → Option Char) (found : Option (α × List Char))
    (rest : List Char) :
    closed? character (found.map fun (x, behind) => (x, behind ++ ' ' :: rest))
      = (closed? character found).map fun (c?, behind) => (c?, behind ++ ' ' :: rest) := by
  cases found with
  | none => rfl
  | some found =>
      obtain ⟨x, behind⟩ := found
      cases behind with
      | nil => rfl
      | cons c r =>
          by_cases hc : c = ';'
          · subst hc
            rfl
          · simp [closed?, hc]

theorem length_of_closed? {α : Type} {character : α → Option Char}
    {found : Option (α × List Char)} {c? : Option Char} {behind : List Char}
    (h : closed? character found = some (c?, behind)) :
    ∃ x r, found = some (x, r) ∧ behind.length < r.length := by
  unfold closed? at h
  split at h
  · cases h
    exact ⟨_, _, rfl, Nat.lt_succ_self _⟩
  · exact nomatch h

theorem readReference?_eq (s : List Char) :
    Xml.readReference? s = if s.head? = some '#' then
        if s.tail.head? == some 'X' then none
        else closed? (fun n => if isCharNumber n && Xml.isChar (Char.ofNat n) && n != 0
          then some (Char.ofNat n) else none) (readNumber? s.tail)
      else closed? (fun name => Xml.predefined.lookup name) (Xml.readPlainName? s) := by
  unfold Xml.readReference?
  split
  · rename_i r
    rw [List.head?_cons, if_pos rfl, List.tail_cons]
    split
    · rfl
    · cases readNumber? r with
      | none => rfl
      | some found =>
          obtain ⟨n, behind⟩ := found
          cases behind with
          | nil => rfl
          | cons c behind =>
              by_cases hc : c = ';'
              · subst hc
                rfl
              · simp [closed?, hc]
  · rename_i hnumber
    have hname : s.head? ≠ some '#' := by
      cases s with
      | nil => simp
      | cons c r => exact fun h => hnumber r (congrArg (· :: r) (Option.some.inj h))
    rw [if_neg hname]
    cases Xml.readPlainName? s with
    | none => rfl
    | some found =>
        obtain ⟨name, behind⟩ := found
        cases behind with
        | nil => rfl
        | cons c behind =>
            by_cases hc : c = ';'
            · subst hc
              rfl
            · simp [closed?, hc]

theorem length_of_readReference? {s behind : List Char} {c? : Option Char}
    (h : Xml.readReference? s = some (c?, behind)) : behind.length ≤ s.length := by
  rw [readReference?_eq] at h
  split at h
  · split at h
    · exact nomatch h
    · obtain ⟨n, r, hnumber, hlt⟩ := length_of_closed? h
      have hr := length_of_readNumber? hnumber
      rw [List.length_tail] at hr
      omega
  · obtain ⟨name, r, hname, hlt⟩ := length_of_closed? h
    exact hlt.le.trans (length_of_readPlainName? hname)

/-- References in attribute values of SVG. -/
def svgReferences : ReferenceRules where
  read? s := (Xml.readReference? s).map fun (c?, behind) => (c?.toList, behind)
  stray := []
  plain c := if Xml.isSpace c then ' ' else c
  shorter {s decoded behind} h := by
    obtain ⟨⟨c?, r⟩, hread, hfound⟩ := Option.map_eq_some_iff.mp h
    cases hfound
    have hbehind := length_of_readReference? hread
    have hc : c?.toList.length ≤ 1 := by cases c? <;> simp
    exact ⟨hbehind, by omega⟩
  before_space s rest := by
    have hspace : Xml.readReference? (s ++ ' ' :: rest)
        = (Xml.readReference? s).map fun (c?, behind) => (c?, behind ++ ' ' :: rest) := by
      rw [readReference?_eq, readReference?_eq]
      cases s with
      | nil => rfl
      | cons c r =>
          rw [List.cons_append, List.head?_cons, List.head?_cons]
          split
          · rw [List.tail_cons, List.tail_cons, readNumber?_space, closed?_space]
            cases r with
            | nil => rfl
            | cons x r =>
                rw [List.cons_append, List.head?_cons, List.head?_cons]
                split <;> rfl
          · rw [← List.cons_append, readPlainName?_space, closed?_space]
    rw [hspace]
    cases Xml.readReference? s <;> rfl
  stray_length := Nat.zero_le 1
  plain_space := rfl

theorem lenientValue_eq (s : List Char) : Xml.lenientValue s s.length = svgReferences.decode s := by
  have hall : ∀ (count : Nat) (s : List Char),
      Xml.lenientValue s count = svgReferences.decodeUpTo count s := by
    intro count s
    induction count generalizing s with
    | zero => cases s <;> rfl
    | succ count ih =>
        cases s with
        | nil => rfl
        | cons c r =>
            by_cases hc : c = '&'
            · subst hc
              rw [Xml.lenientValue]
              cases hread : Xml.readReference? r with
              | none =>
                  have hnone : svgReferences.read? r = none := Option.map_eq_none_iff.mpr hread
                  rw [ReferenceRules.decodeUpTo_stray hnone, ← ih]
                  rfl
              | some found =>
                  have hsome : svgReferences.read? r = some (found.1.toList, found.2) :=
                    Option.map_eq_some_iff.mpr ⟨found, hread, rfl⟩
                  rw [ReferenceRules.decodeUpTo_reference hsome, ← ih]
            · rw [ReferenceRules.decodeUpTo_plain hc, ← ih, Xml.lenientValue]
              · rfl
              · exact fun h => hc h
  exact hall s.length s

end LiveTemplate.Text
