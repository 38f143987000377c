import LiveTemplate.Proofs.Plain.Document

/-!
# Reading start tags

A reader of HTML takes a start tag apart into the words that gaps set apart, however long the gaps
are and whatever the quoted values hold: `readStartTag_body`.  The marker of a tag is one more word
of it, and a placeholder is a word that is missing.
-/

namespace LiveTemplate.Plain

set_option autoImplicit false

open Text

/-! ## Spacing and separators -/

theorem takeWhile_append_cons {p : Char → Bool} {s rest : List Char} {c : Char}
    (hs : ∀ x ∈ s, p x = true) (hc : p c = false) : (s ++ c :: rest).takeWhile p = s := by
  rw [List.takeWhile_append_of_pos hs, List.takeWhile_cons_of_neg (by simp [hc]), List.append_nil]

theorem dropWhile_append_cons {p : Char → Bool} {s rest : List Char} {c : Char}
    (hs : ∀ x ∈ s, p x = true) (hc : p c = false) : (s ++ c :: rest).dropWhile p = c :: rest := by
  rw [List.dropWhile_append_of_pos hs, List.dropWhile_cons_of_neg (by simp [hc])]

theorem splitAt?_append {stop : Char} {s : List Char} (rest : List Char) (h : stop ∉ s) :
    Html.splitAt? stop (s ++ stop :: rest) = some (s, rest) := by
  have hs : ∀ x ∈ s, (x != stop) = true := fun x hx => by
    simp only [bne_iff_ne, ne_eq]
    rintro rfl
    exact h hx
  have hstop : (stop != stop) = false := by simp
  unfold Html.splitAt?
  rw [dropWhile_append_cons hs hstop, takeWhile_append_cons hs hstop]

theorem skipSeparators_cons {c : Char} (h : c ≠ '/') (rest : List Char) :
    Html.skipSeparators (c :: rest)
      = if isBlank c then Html.skipSeparators rest else c :: rest := by
  rw [Html.skipSeparators.eq_def]
  split
  · rename_i heq
    cases heq
  · rename_i heq
    exact absurd (List.cons.inj heq).1 h
  · rename_i heq
    obtain ⟨rfl, rfl⟩ := List.cons.inj heq
    simp [h]

theorem skipSeparators_spacing {s : List Char} (hs : ∀ c ∈ s, isSpacing c = true)
    (rest : List Char) : Html.skipSeparators (s ++ rest) = Html.skipSeparators rest := by
  induction s with
  | nil => rfl
  | cons c s ih =>
      have hc := hs c (by simp)
      have hslash : c ≠ '/' := by
        intro heq
        rw [heq] at hc
        exact absurd hc (by decide)
      rw [List.cons_append, skipSeparators_cons hslash, if_pos (isBlank_of_isSpacing hc),
        ih fun x hx => hs x (by simp [hx])]

theorem skipSeparators_name {c : Char} (h : Html.isAttributeNameChar c = true) (rest : List Char) :
    Html.skipSeparators (c :: rest) = c :: rest := by
  simp only [Html.isAttributeNameChar, Bool.not_eq_true', Bool.or_eq_false_iff,
    beq_eq_false_iff_ne] at h
  rw [skipSeparators_cons h.1.1.2, if_neg (by simp [h.1.1.1])]

theorem skipSeparators_tagEnd (closed : Bool) (rest : List Char) :
    Html.skipSeparators (tagEnd closed ++ rest) = tagEnd closed ++ rest := by
  cases closed <;> rfl

/-- Only separators are skipped. -/
theorem exists_separators (s : List Char) :
    ∃ skipped, s = skipped ++ Html.skipSeparators s ∧ ∀ c ∈ skipped, Html.separates c = true := by
  fun_induction Html.skipSeparators s with
  | case1 => exact ⟨[], rfl, by simp⟩
  | case2 r => exact ⟨[], rfl, by simp⟩
  | case3 c r hslash hskip ih =>
      obtain ⟨skipped, hr, hskipped⟩ := ih
      refine ⟨c :: skipped, congrArg (c :: ·) hr, List.forall_mem_cons.mpr ⟨?_, hskipped⟩⟩
      simp only [Html.separates, Bool.or_eq_true, beq_iff_eq] at hskip ⊢
      exact hskip.imp_left fun hblank => .inl (.inl hblank)
  | case4 c r hslash hskip => exact ⟨[], rfl, by simp⟩

/-! ## Attributes -/

/-- A value as it stands in a tag, with the equals sign in front of it. -/
structure Assigned where
  sign : Sign
  quote : Option Quote
  chars : List Char

namespace Assigned

/-- The value with its quotes, if it has any. -/
def quoted (v : Assigned) : List Char :=
  match v.quote with
  | some quote => [quote.char] ++ v.chars ++ [quote.char]
  | none => v.chars

/-- The value as it is written. -/
def text (v : Assigned) : List Char := v.sign.chars ++ v.quoted

/-- Nothing in the value ends it. -/
def Legible (v : Assigned) : Prop :=
  match v.quote with
  | some quote => quote.char ∉ v.chars
  | none => ∃ value : BareValue, v.chars = value.chars

end Assigned

/-- An attribute as it stands in a tag, with its markers. -/
structure Attribute where
  name : List Char
  value : Option Assigned

namespace Attribute

/-- The value as it is written. -/
def valueText (a : Attribute) : List Char := a.value.elim [] Assigned.text

/-- The attribute as it is written. -/
def text (a : Attribute) : List Char := a.name ++ a.valueText

/-- What is read of the attribute. -/
def read (a : Attribute) : String × String :=
  (Html.lowerName a.name, String.ofList ((a.value.map (decodeValue ·.chars)).getD []))

/-- A slash directly behind the attribute would be part of it. -/
def runsOn (a : Attribute) : Bool := a.value.any (·.quote.isNone)

/-- The name is one for scanners and readers alike, and the value ends where it seems to end. -/
structure Legible (a : Attribute) : Prop where
  nonempty : a.name ≠ []
  nameText : NameText a.name
  value : ∀ v ∈ a.value, v.Legible

end Attribute

/-- An equals sign and the spacing around it are skipped in three steps. -/
theorem dropWhile_sign (sign : Sign) {c : Char} (hblank : isBlank c = false) (hsign : c ≠ '=')
    (rest : List Char) :
    (sign.chars ++ c :: rest).dropWhile isBlank = '=' :: (sign.after.chars ++ c :: rest) ∧
      (sign.after.chars ++ c :: rest).dropWhile (· == '=') = sign.after.chars ++ c :: rest ∧
      (sign.after.chars ++ c :: rest).dropWhile isBlank = c :: rest := by
  have hspacing : ∀ s : Spacing, ∀ x ∈ s.chars, isBlank x = true := fun s x hx =>
    isBlank_of_isSpacing (s.spacing x hx)
  refine ⟨?_, ?_, dropWhile_append_cons (hspacing sign.after) hblank⟩
  · unfold Sign.chars
    rw [List.append_assoc, List.cons_append]
    exact dropWhile_append_cons (hspacing sign.before) (by decide)
  · cases hafter : sign.after.chars with
    | nil => exact List.dropWhile_cons_of_neg (by simp [hsign])
    | cons x more =>
        have hx : x ≠ '=' := by
          rintro rfl
          exact absurd (sign.after.spacing '=' (by simp [hafter])) (by decide)
        exact List.dropWhile_cons_of_neg (by simp [hx])

theorem Quote.char_eq (quote : Quote) : quote.char = '\'' ∨ quote.char = '"' := by
  cases quote with
  | single => exact .inl rfl
  | double => exact .inr rfl

theorem readValue_quoted (sign : Sign) {quote : Char} {value : List Char} (rest : List Char)
    (hquote : quote = '\'' ∨ quote = '"') (h : quote ∉ value) :
    Html.readValue (sign.chars ++ quote :: (value ++ quote :: rest)) = (some value, rest) := by
  have hsplit := splitAt?_append rest h
  have hmark : isBlank quote = false ∧ quote ≠ '=' := by
    rcases hquote with rfl | rfl <;> decide
  obtain ⟨hspacing, hsigns, hvalue⟩ :=
    dropWhile_sign sign hmark.1 hmark.2 (value ++ quote :: rest)
  unfold Html.readValue
  rw [hspacing]
  split
  · rename_i r heq
    obtain rfl := (List.cons.inj heq).2
    dsimp only
    rw [hsigns, hvalue]
    dsimp only
    rcases hquote with rfl | rfl
    · rw [if_pos rfl, hsplit, Option.some_or]
    · rw [if_neg (by decide), if_pos rfl, hsplit, Option.none_or]
  · rename_i hnone
    exact absurd rfl (hnone _)

theorem readValue_bare (sign : Sign) (value : BareValue) {stop : Char} (rest : List Char)
    (h : Html.isBareValueChar stop = false) :
    Html.readValue (sign.chars ++ (value.chars ++ stop :: rest))
      = (some value.chars, stop :: rest) := by
  obtain ⟨c, more, hchars⟩ := List.exists_cons_of_ne_nil value.nonempty
  have hbegins := value.begins
  have hplain := value.plain
  rw [hchars] at hbegins hplain ⊢
  have hne : ∀ x ∈ ['"', '\'', '='], c ≠ x := fun x hx heq => hbegins x hx (congrArg some heq)
  have hblank : isBlank c = false := by
    have hc := hplain c (by simp)
    simp only [Html.isBareValueChar, Bool.not_eq_true', Bool.or_eq_false_iff] at hc
    exact hc.1
  obtain ⟨hspacing, hsigns, hvalue⟩ :=
    dropWhile_sign sign hblank (hne '=' (by simp)) (more ++ stop :: rest)
  rw [List.cons_append]
  unfold Html.readValue
  rw [hspacing]
  split
  · rename_i r heq
    obtain rfl := (List.cons.inj heq).2
    dsimp only
    rw [hsigns, hvalue]
    dsimp only
    rw [if_neg (hne '\'' (by simp)), if_neg (hne '"' (by simp)), Option.none_or]
    dsimp only
    split
    · rename_i heq
      exact absurd (List.cons.inj heq).1 (hne '\'' (by simp))
    · rename_i heq
      exact absurd (List.cons.inj heq).1 (hne '"' (by simp))
    · rw [← List.cons_append, takeWhile_append_cons hplain h, dropWhile_append_cons hplain h]
  · rename_i hnone
    exact absurd rfl (hnone _)

/-- No name goes on into an equals sign. -/
theorem Sign.exists_chars (sign : Sign) :
    ∃ c more, sign.chars = c :: more ∧ Html.isAttributeNameChar c = false := by
  unfold Sign.chars
  cases hbefore : sign.before.chars with
  | nil => exact ⟨'=', _, rfl, rfl⟩
  | cons c more =>
      have hblank := isBlank_of_isSpacing (sign.before.spacing c (by simp [hbefore]))
      exact ⟨c, _, rfl, by simp [Html.isAttributeNameChar, hblank]⟩

theorem readValue_flag {rest : List Char} (h : (rest.dropWhile isBlank).head? ≠ some '=') :
    Html.readValue rest = (none, rest) := by
  unfold Html.readValue
  split
  · rename_i heq
    rw [heq] at h
    exact absurd rfl h
  · rfl

/-! ## Words -/

/-- The words of a tag, with the gaps in front of them, and everything behind them.  A word that
is missing stands for a placeholder. -/
def body (words : List (Gap × Option Attribute)) (tail : Spacing) (closed : Bool)
    (rest : List Char) : List Char :=
  words.flatMap (fun w => w.1.chars ++ w.2.elim [] Attribute.text)
    ++ (tail.chars ++ (tagEnd closed ++ rest))

section Body

variable {words : List (Gap × Option Attribute)} {tail : Spacing} {closed : Bool}
  {rest : List Char}

theorem body_cons (gap : Gap) (a : Option Attribute) :
    body ((gap, a) :: words) tail closed rest
      = gap.chars ++ (a.elim [] Attribute.text ++ body words tail closed rest) := by
  simp [body]

/-- No name goes on into what stands between words, and no value without quotes does, except into
the slash of the end of a tag. -/
theorem exists_body (words : List (Gap × Option Attribute)) (tail : Spacing) (closed : Bool)
    (rest : List Char) :
    ∃ c more, body words tail closed rest = c :: more ∧ Html.isAttributeNameChar c = false ∧
      Html.isTagNameChar c = false ∧
      (Html.isBareValueChar c = true → words = [] ∧ tail.chars = [] ∧ closed = true) := by
  have hspacing : ∀ c, isSpacing c = true → Html.isAttributeNameChar c = false ∧
      Html.isTagNameChar c = false ∧ Html.isBareValueChar c = false := by
    intro c hc
    have hblank := isBlank_of_isSpacing hc
    simp only [isSpacing, Bool.or_eq_true, beq_iff_eq] at hc
    refine ⟨by simp [Html.isAttributeNameChar, hblank], ?_,
      by simp [Html.isBareValueChar, hblank]⟩
    rcases hc with (((rfl | rfl) | rfl) | rfl) | rfl <;> rfl
  have hstart : ∀ (s : Spacing) (more : List Char), s.chars ≠ [] →
      ∃ c others, s.chars ++ more = c :: others ∧ Html.isAttributeNameChar c = false ∧
        Html.isTagNameChar c = false ∧ Html.isBareValueChar c = false := by
    intro s more hne
    obtain ⟨c, others, hchars⟩ := List.exists_cons_of_ne_nil hne
    exact ⟨c, others ++ more, by rw [hchars]; rfl, hspacing c (s.spacing c (by simp [hchars]))⟩
  cases words with
  | cons w words =>
      obtain ⟨gap, a⟩ := w
      rw [body_cons]
      obtain ⟨c, more, hbody, hattribute, htag, hbare⟩ := hstart gap.toSpacing _ gap.nonempty
      exact ⟨c, more, hbody, hattribute, htag, fun h => absurd h (by simp [hbare])⟩
  | nil =>
      show ∃ c more, tail.chars ++ (tagEnd closed ++ rest) = c :: more ∧ _
      by_cases hne : tail.chars = []
      · rw [hne]
        cases closed with
        | true => exact ⟨'/', '>' :: rest, rfl, rfl, rfl, fun _ => ⟨rfl, rfl, rfl⟩⟩
        | false => exact ⟨'>', rest, rfl, rfl, rfl, fun h => absurd h (by decide)⟩
      · obtain ⟨c, more, hbody, hattribute, htag, hbare⟩ := hstart tail _ hne
        exact ⟨c, more, hbody, hattribute, htag, fun h => absurd h (by simp [hbare])⟩

theorem skipSeparators_body (tail : Spacing) (closed : Bool) (rest : List Char) :
    Html.skipSeparators (body [] tail closed rest) = tagEnd closed ++ rest := by
  show Html.skipSeparators (tail.chars ++ (tagEnd closed ++ rest)) = _
  rw [skipSeparators_spacing tail.spacing, skipSeparators_tagEnd]

/-- What follows a word is no equals sign. -/
theorem head?_dropWhile_body (hwords : ∀ w ∈ words, ∀ a ∈ w.2, a.Legible) :
    ((body words tail closed rest).dropWhile isBlank).head? ≠ some '=' := by
  have hblank : ∀ s : Spacing, ∀ c ∈ s.chars, isBlank c = true := fun s c hc =>
    isBlank_of_isSpacing (s.spacing c hc)
  induction words with
  | nil =>
      show ((tail.chars ++ (tagEnd closed ++ rest)).dropWhile isBlank).head? ≠ some '='
      rw [List.dropWhile_append_of_pos (hblank tail)]
      cases closed with
      | true =>
          show (('/' :: '>' :: rest).dropWhile isBlank).head? ≠ some '='
          rw [List.dropWhile_cons_of_neg (by decide)]
          simp
      | false =>
          show (('>' :: rest).dropWhile isBlank).head? ≠ some '='
          rw [List.dropWhile_cons_of_neg (by decide)]
          simp
  | cons w words ih =>
      obtain ⟨gap, a⟩ := w
      rw [body_cons, List.dropWhile_append_of_pos (hblank gap.toSpacing)]
      cases a with
      | none => exact ih fun w hw => hwords w (by simp [hw])
      | some a =>
          have ha : a.Legible := hwords (gap, some a) (by simp) a rfl
          obtain ⟨c, name, hname⟩ := List.exists_cons_of_ne_nil ha.nonempty
          have hc := ha.nameText c (by simp [hname])
          simp only [Html.isAttributeNameChar, Bool.not_eq_true', Bool.or_eq_false_iff,
            beq_eq_false_iff_ne] at hc
          rw [Option.elim_some, Attribute.text, hname, List.cons_append, List.cons_append,
            List.dropWhile_cons_of_neg (by simp [hc.1.1.1])]
          simpa using hc.1.2

/-- The slash of the end of a tag is no part of its last attribute. -/
def Apart (words : List (Gap × Option Attribute)) (tail : Spacing) (closed : Bool) : Prop :=
  closed = true → tail.chars = [] → words.getLast?.any (·.2.any Attribute.runsOn) = false

theorem Apart.of_cons {w : Gap × Option Attribute} (h : Apart (w :: words) tail closed) :
    Apart words tail closed := by
  intro hclosed htail
  cases words with
  | nil => rfl
  | cons next words => exact h hclosed htail

/-- The value of an attribute is read up to what follows the attribute. -/
theorem readValue_body {gap : Gap} {a : Attribute} (ha : a.Legible)
    (hwords : ∀ w ∈ words, ∀ a ∈ w.2, a.Legible) (h : Apart ((gap, some a) :: words) tail closed) :
    Html.readValue (a.valueText ++ body words tail closed rest)
      = (a.value.map (·.chars), body words tail closed rest) := by
  unfold Attribute.valueText
  cases hvalue : a.value with
  | none => exact readValue_flag (head?_dropWhile_body hwords)
  | some v =>
      have hlegible := ha.value v hvalue
      obtain ⟨sign, quote, chars⟩ := v
      cases quote with
      | some quote =>
          have hread := readValue_quoted sign (body words tail closed rest) quote.char_eq hlegible
          simpa [Assigned.text, Assigned.quoted] using hread
      | none =>
          obtain ⟨value, rfl⟩ : ∃ value : BareValue, chars = value.chars := hlegible
          obtain ⟨stop, more, hbody, -, -, hbare⟩ := exists_body words tail closed rest
          have hstop : Html.isBareValueChar stop = false := by
            refine Bool.eq_false_iff.mpr fun hstop => ?_
            obtain ⟨rfl, htail, hclosed⟩ := hbare hstop
            have hlast := h hclosed htail
            simp [Attribute.runsOn, hvalue] at hlast
          have hread := readValue_bare sign value more hstop
          rw [hbody]
          simpa [Assigned.text, Assigned.quoted] using hread

/-- Whether an attribute may begin where a reader has come to. -/
def mayBegin (s next : List Char) : Bool :=
  ((s.take (s.length - next.length)).getLast?.map Html.separates).getD false

theorem mayBegin_append {front skipped next : List Char} (hne : skipped ≠ [])
    (hskipped : ∀ c ∈ skipped, Html.separates c = true) :
    mayBegin (front ++ (skipped ++ next)) next = true := by
  have htake : (front ++ (skipped ++ next)).take ((front ++ (skipped ++ next)).length - next.length)
      = front ++ skipped := by
    rw [← List.append_assoc]
    refine List.take_left' ?_
    simp only [List.length_append]
    omega
  rw [mayBegin, htake, List.getLast?_append, List.getLast?_eq_some_getLast hne]
  exact hskipped _ (List.getLast_mem hne)

theorem length_skipSeparators_body (hwords : words ≠ []) :
    (Html.skipSeparators (body words tail closed rest)).length
      < (body words tail closed rest).length := by
  obtain ⟨⟨gap, a⟩, words, rfl⟩ := List.exists_cons_of_ne_nil hwords
  have hgap := List.length_pos_iff.mpr gap.nonempty
  rw [body_cons, skipSeparators_spacing gap.spacing]
  obtain ⟨skipped, hskipped, -⟩ :=
    exists_separators (a.elim [] Attribute.text ++ body words tail closed rest)
  have hlength := congrArg List.length hskipped
  simp only [List.length_append] at hlength ⊢
  omega

/-- Behind a gap an attribute may begin. -/
theorem mayBegin_body (front : List Char) (hwords : words ≠ []) :
    mayBegin (front ++ body words tail closed rest)
      (Html.skipSeparators (body words tail closed rest)) = true := by
  obtain ⟨skipped, hbody, hskipped⟩ := exists_separators (body words tail closed rest)
  have hlength : (Html.skipSeparators (body words tail closed rest)).length
      < (body words tail closed rest).length :=
    length_skipSeparators_body hwords
  have hne : skipped ≠ [] := by
    rintro rfl
    exact absurd (congrArg List.length hbody) (Nat.ne_of_gt hlength)
  have hmay : mayBegin (front ++ (skipped ++ Html.skipSeparators (body words tail closed rest)))
      (Html.skipSeparators (body words tail closed rest)) = true :=
    mayBegin_append hne hskipped
  rwa [← hbody] at hmay

/-- One attribute is read, and what may follow it is skipped. -/
theorem readAttributes_succ {gap : Gap} {a : Attribute} (ha : a.Legible)
    (hwords : ∀ w ∈ words, ∀ a ∈ w.2, a.Legible) (h : Apart ((gap, some a) :: words) tail closed)
    (count : Nat) :
    let behind := body words tail closed rest
    let next := Html.skipSeparators behind
    let later := Html.readAttributes (mayBegin (a.text ++ behind) next) next count
    Html.readAttributes true (a.text ++ behind) (count + 1) = (a.read :: later.1, later.2) := by
  intro behind next later
  have hvalue : Html.readValue (a.valueText ++ behind) = (a.value.map (·.chars), behind) :=
    readValue_body ha hwords h
  obtain ⟨c, name, hname⟩ := List.exists_cons_of_ne_nil ha.nonempty
  have htext : a.text ++ behind = c :: (name ++ (a.valueText ++ behind)) := by
    rw [Attribute.text, hname, List.append_assoc]
    rfl
  obtain ⟨stop, more, hstop, hnot⟩ : ∃ stop more, a.valueText ++ behind = stop :: more ∧
      Html.isAttributeNameChar stop = false := by
    unfold Attribute.valueText
    cases a.value with
    | none =>
        obtain ⟨stop, more, hbody, hnot, -⟩ := exists_body words tail closed rest
        exact ⟨stop, more, hbody, hnot⟩
    | some v =>
        obtain ⟨stop, more, hsign, hnot⟩ := v.sign.exists_chars
        exact ⟨stop, more ++ (v.quoted ++ behind), by simp [Assigned.text, hsign], hnot⟩
  have hc := ha.nameText c (by simp [hname])
  have hname' : ∀ x ∈ name, Html.isAttributeNameChar x = true := fun x hx =>
    ha.nameText x (by simp [hname, hx])
  have hbegins : (true && !(isBlank c || c == '/' || c == '>')) = true := by
    simp only [Html.isAttributeNameChar, Bool.not_eq_true', Bool.or_eq_false_iff] at hc
    simp [hc]
  have hread : a.read = (Html.lowerName (c :: name),
      String.ofList (((a.value.map (·.chars)).map decodeValue).getD [])) := by
    rw [Attribute.read, hname, Option.map_map]
    rfl
  rw [hread]
  show Html.readAttributes true (a.text ++ behind) (count + 1) =
    (_ :: (Html.readAttributes (mayBegin (a.text ++ behind) next) next count).1,
      (Html.readAttributes (mayBegin (a.text ++ behind) next) next count).2)
  rw [htext, Html.readAttributes]
  dsimp only
  rw [if_pos hbegins]
  rw [hstop] at hvalue ⊢
  rw [takeWhile_append_cons hname' hnot, dropWhile_append_cons hname' hnot, hvalue]
  rfl

/-- At the end of a tag no attribute is read. -/
theorem readAttributes_tagEnd (free : Bool) (count : Nat) :
    Html.readAttributes free (tagEnd closed ++ rest) count = ([], tagEnd closed ++ rest) := by
  cases count with
  | zero => rfl
  | succ count =>
      cases closed with
      | true =>
          show Html.readAttributes free ('/' :: '>' :: rest) (count + 1) = _
          rw [Html.readAttributes]
          exact if_neg (by simp)
      | false =>
          show Html.readAttributes free ('>' :: rest) (count + 1) = _
          rw [Html.readAttributes]
          exact if_neg (by simp)

/-- All attributes of a tag are read. -/
theorem readAttributes_body {free : Bool} {count : Nat} (hfree : words ≠ [] → free = true)
    (hwords : ∀ w ∈ words, ∀ a ∈ w.2, a.Legible) (h : Apart words tail closed)
    (hcount : (Html.skipSeparators (body words tail closed rest)).length ≤ count) :
    Html.readAttributes free (Html.skipSeparators (body words tail closed rest)) count
      = ((words.filterMap (·.2)).map Attribute.read, tagEnd closed ++ rest) := by
  induction words generalizing free count with
  | nil =>
      rw [skipSeparators_body]
      exact readAttributes_tagEnd free count
  | cons w words ih =>
      obtain ⟨gap, a⟩ := w
      obtain rfl := hfree (by simp)
      have hrest : ∀ w ∈ words, ∀ a ∈ w.2, a.Legible := fun w hw => hwords w (by simp [hw])
      rw [body_cons, skipSeparators_spacing gap.spacing] at hcount ⊢
      cases a with
      | none =>
          exact ih (fun _ => rfl) hrest h.of_cons hcount
      | some a =>
          have ha : a.Legible := hwords (gap, some a) (by simp) a rfl
          obtain ⟨c, name, hname⟩ := List.exists_cons_of_ne_nil ha.nonempty
          have hself : Html.skipSeparators (a.text ++ body words tail closed rest)
              = a.text ++ body words tail closed rest := by
            rw [Attribute.text, hname]
            exact skipSeparators_name (ha.nameText c (by simp [hname])) _
          rw [Option.elim_some, hself] at hcount ⊢
          obtain ⟨skipped, hskipped, -⟩ := exists_separators (body words tail closed rest)
          have hlength := congrArg List.length hskipped
          have htext : 0 < a.text.length := by
            rw [Attribute.text, hname]
            simp
          simp only [List.length_append] at hcount hlength
          obtain ⟨count, rfl⟩ : ∃ n, count = n + 1 := ⟨count - 1, by omega⟩
          rw [readAttributes_succ ha hrest h, ih (mayBegin_body _) hrest h.of_cons (by omega)]
          rfl

/-- A start tag is read as it is written. -/
theorem readStartTag_body (name : TagName) (hwords : ∀ w ∈ words, ∀ a ∈ w.2, a.Legible)
    (h : Apart words tail closed) :
    Html.readStartTag (name.chars ++ body words tail closed rest)
      = .whole (.startTag (Html.lowerName name.chars)
          ((words.filterMap (·.2)).map Attribute.read) closed) rest := by
  have hname : ∀ c ∈ name.chars, Html.isTagNameChar c = true := fun c hc =>
    (nameChar (name.isEndTagNameChar hc)).1
  obtain ⟨stop, more, hbody, -, hstop, -⟩ := exists_body words tail closed rest
  have hattributes : ∀ free, (words ≠ [] → free = true) →
      Html.readAttributes free (Html.skipSeparators (body words tail closed rest))
          (Html.skipSeparators (body words tail closed rest)).length
        = ((words.filterMap (·.2)).map Attribute.read, tagEnd closed ++ rest) :=
    fun _ hfree => readAttributes_body hfree hwords h (Nat.le_refl _)
  unfold Html.readStartTag
  dsimp only
  rw [hbody, takeWhile_append_cons hname hstop, dropWhile_append_cons hname hstop, ← hbody,
    hattributes _ fun hne => by rw [decide_eq_true (length_skipSeparators_body hne)]; rfl]
  cases closed <;> rfl

end Body

end LiveTemplate.Plain
