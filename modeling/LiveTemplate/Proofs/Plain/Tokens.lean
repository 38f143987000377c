import LiveTemplate.Proofs.Html.Elements
import LiveTemplate.Proofs.Plain.StartTag

/-!
# Reading plainly written documents

`Reads` says that a reader of HTML takes a whole text apart in its first round, so that nothing is
left over for the second one: `tokens_of_reads`.  `Begins` says which elements begin in the text
then.  Running text in front of it makes no difference (`begins_dropWhile_iff`), so a document is
read piece by piece although adjacent texts are read as one.
-/

namespace LiveTemplate.Plain

set_option autoImplicit false

open Text

/-! ## Whole texts -/

/-- All of a text is read, construct by construct. -/
inductive Reads : Option String → List Char → List Html.Token → Prop
  | done : Reads none [] []
  | step {raw : Option String} {s : List Char} {now : Html.Step} {later : List Html.Token}
      (reads : Html.step false raw s = .ok now) (goesOn : now.halt = false)
      (shorter : now.rest.length < s.length) (behind : Reads now.raw now.rest later) :
      Reads raw s (now.tokens ++ later)

theorem round_of_reads {raw : Option String} {s : List Char} {tokens : List Html.Token}
    {count : Nat} (h : Reads raw s tokens) (hcount : s.length ≤ count) :
    Html.round false raw s count = .ok ⟨tokens, [], none⟩ := by
  induction h generalizing count with
  | done => cases count <;> rfl
  | @step raw s now later reads goesOn shorter behind ih =>
      obtain ⟨count, rfl⟩ : ∃ n, count = n + 1 := ⟨count - 1, by omega⟩
      have hne : s.isEmpty = false := by
        cases s with
        | nil => exact absurd shorter (Nat.not_lt_zero _)
        | cons c rest => rfl
      rw [Html.round, hne, reads]
      show (if now.halt = true then _ else _) = _
      rw [goesOn, if_neg (by decide), ih (by omega)]
      rfl

/-- A text that is read in the first round is read altogether. -/
theorem tokens_of_reads {s : List Char} {tokens : List Html.Token} (h : Reads none s tokens) :
    Html.tokens s = .ok tokens := by
  unfold Html.tokens
  rw [round_of_reads h (Nat.le_refl _)]
  show Except.ok (tokens ++ [] ++ []) = _
  rw [List.append_nil, List.append_nil]

/-- All of a text is read, and the elements begin in it. -/
def Begins (s : List Char) (elements : List Element) : Prop :=
  ∃ tokens, Reads none s tokens ∧ tokens.filterMap Html.Token.element? = elements

theorem Begins.nil : Begins [] [] := ⟨[], .done, rfl⟩

/-- One construct is read in front of a text. -/
theorem Begins.step {s : List Char} {now : Html.Step} {elements : List Element}
    (reads : Html.step false none s = .ok now) (goesOn : now.halt = false) (hraw : now.raw = none)
    (shorter : now.rest.length < s.length) (h : Begins now.rest elements) :
    Begins s (now.tokens.filterMap Html.Token.element? ++ elements) := by
  obtain ⟨tokens, htokens, rfl⟩ := h
  exact ⟨now.tokens ++ tokens, .step reads goesOn shorter (hraw ▸ htokens), List.filterMap_append⟩

/-! ## Running text -/

/-- A character of running text. -/
def isRunning (c : Char) : Bool := c != '<' && c != '&'

theorem drop_length_takeWhile (p : Char → Bool) (s : List Char) :
    s.drop (s.takeWhile p).length = s.dropWhile p := by
  have hsplit : s.takeWhile p ++ s.dropWhile p = s := List.takeWhile_append_dropWhile
  calc s.drop (s.takeWhile p).length
      = (s.takeWhile p ++ s.dropWhile p).drop (s.takeWhile p).length := by rw [hsplit]
    _ = s.dropWhile p := List.drop_left

/-- Running text is read as one. -/
theorem step_running {c : Char} {rest : List Char} (h : isRunning c = true) :
    Html.step false none (c :: rest) = .ok {
      tokens := [.text ((c :: rest).takeWhile isRunning)],
      rest := (c :: rest).dropWhile isRunning } := by
  simp only [isRunning, Bool.and_eq_true, bne_iff_ne, ne_eq] at h
  rw [← drop_length_takeWhile]
  unfold Html.step
  dsimp only
  split
  · rename_i heq
    exact absurd (List.cons.inj heq).1 h.1
  · rename_i heq
    exact absurd (List.cons.inj heq).1 h.2
  · rfl

/-- Running text in front of a text begins no element. -/
theorem begins_dropWhile_iff {s : List Char} {elements : List Element} :
    Begins (s.dropWhile isRunning) elements ↔ Begins s elements := by
  cases s with
  | nil => exact Iff.rfl
  | cons c rest =>
      by_cases hc : isRunning c = true
      · have hshorter : ((c :: rest).dropWhile isRunning).length < (c :: rest).length := by
          rw [List.dropWhile_cons_of_pos hc]
          exact Nat.lt_succ_of_le (List.dropWhile_sublist _).length_le
        constructor
        · exact fun h => h.step (step_running hc) rfl rfl hshorter
        · rintro ⟨tokens, hreads, rfl⟩
          cases hreads with
          | step reads goesOn shorter behind =>
              rw [step_running hc] at reads
              cases reads
              exact ⟨_, behind, rfl⟩
      · rw [List.dropWhile_cons_of_neg hc]

theorem Begins.running {s rest : List Char} {elements : List Element}
    (hs : ∀ c ∈ s, isRunning c = true) (h : Begins rest elements) :
    Begins (s ++ rest) elements := by
  rw [← begins_dropWhile_iff, List.dropWhile_append_of_pos hs, begins_dropWhile_iff]
  exact h

/-! ## Tags -/

theorem step_letter {c : Char} {rest behind : List Char} {name : String}
    {attributes : List (String × String)} {closed : Bool} (hletter : Html.isLetter c = true)
    (hmarks : c ∉ ['!', '?', '<', '=', '>', '/'])
    (hread : Html.readStartTag (c :: rest) = .whole (.startTag name attributes closed) behind) :
    Html.step false none ('<' :: c :: rest) = .ok {
      tokens := [.startTag name attributes closed], rest := behind,
      raw := if !closed && Html.rawElements.contains name then some name else none } := by
  simp only [List.mem_cons, List.not_mem_nil, or_false, not_or] at hmarks
  obtain ⟨hbang, hquestion, -, -, -, hslash⟩ := hmarks
  show Html.tagStep false (c :: rest) = _
  unfold Html.tagStep
  split
  · rename_i heq
    cases heq
  · rename_i heq
    exact absurd (List.cons.inj heq).1 hslash
  · rename_i heq
    exact absurd (List.cons.inj heq).1 hbang
  · rename_i heq
    exact absurd (List.cons.inj heq).1 hquestion
  · rename_i heq
    obtain ⟨rfl, rfl⟩ := List.cons.inj heq
    rw [if_pos hletter, hread]

/-- A start tag is read as it is written. -/
theorem step_startTag {words : List (Gap × Option Attribute)} (name : TagName) (tail : Spacing)
    (closed : Bool) (rest : List Char) (hwords : ∀ w ∈ words, ∀ a ∈ w.2, a.Legible)
    (h : Apart words tail closed) :
    Html.step false none ('<' :: (name.chars ++ body words tail closed rest)) = .ok {
      tokens := [.startTag (Html.lowerName name.chars)
        ((words.filterMap (·.2)).map Attribute.read) closed],
      rest := rest,
      raw := if !closed && Html.rawElements.contains (Html.lowerName name.chars) then
        some (Html.lowerName name.chars) else none } :=
  step_letter name.letter (nameChar (name.isEndTagNameChar (List.mem_cons_self ..))).2.2
    (readStartTag_body name hwords h)

/-- An end tag is read as it is written. -/
theorem step_endTag (name : TagName) (rest : List Char) :
    Html.step false none (endTagOf name.chars ++ rest) = .ok {
      tokens := [.endTag (Html.lowerName name.chars)], rest := rest } := by
  have hclose : Html.isEndTagNameChar '>' = false := by decide
  have hname : ∀ c ∈ name.chars, Html.isEndTagNameChar c = true := fun _ => name.isEndTagNameChar
  have hsplit := splitAt?_append rest (name.not_mem (c := '>') (by simp))
  have hblank := (nameChar (name.isEndTagNameChar (List.mem_cons_self ..))).2.1
  have hinner : (name.chars ++ '>' :: rest).dropWhile isBlank = name.chars ++ '>' :: rest :=
    List.dropWhile_cons_of_neg (by simp [hblank])
  have hrest : ('>' :: rest).dropWhile isBlank = '>' :: rest :=
    List.dropWhile_cons_of_neg (by decide)
  have htext : endTagOf name.chars ++ rest = '<' :: '/' :: (name.chars ++ '>' :: rest) := by
    simp [endTagOf]
  rw [htext]
  show Except.ok (Html.endTagStep false (name.chars ++ '>' :: rest)) = _
  unfold Html.endTagStep
  rw [hsplit]
  dsimp only
  rw [hinner, takeWhile_append_cons hname hclose, dropWhile_append_cons hname hclose, hrest]
  have hletter : (name.chars.head?.map Html.isLetter).getD false = true := name.letter
  rw [hletter]
  rfl

/-! ## Other constructs -/

/-- An end tag begins no element. -/
theorem Begins.endTag {rest : List Char} {elements : List Element} (name : TagName)
    (h : Begins rest elements) : Begins (endTagOf name.chars ++ rest) elements :=
  h.step (step_endTag name rest) rfl rfl (by simp [endTagOf]; omega)

/-- A named reference is read as it is written. -/
theorem step_reference (name : TagName) (hname : ∀ c ∈ name.rest, c.isAlphanum = true)
    (rest : List Char) :
    ∃ s, Html.step false none ('&' :: name.chars ++ [';'] ++ rest)
      = .ok { tokens := [.text s], rest := rest } := by
  have hchars : ∀ c ∈ name.chars, Html.isReferenceNameChar c = true := by
    have hfirst : name.first.isAlphanum = true := by
      have hletter : name.first.isAlpha = true := name.letter
      show (name.first.isAlpha || name.first.isDigit) = true
      rw [hletter]
      rfl
    intro c hc
    rcases List.mem_cons.mp hc with rfl | hmem
    · simp [Html.isReferenceNameChar, hfirst]
    · simp [Html.isReferenceNameChar, hname c hmem]
  have hstop : Html.isReferenceNameChar ';' = false := by decide
  have hread : Html.readTextName? (name.chars ++ ';' :: rest) = some (name.chars, ';' :: rest) := by
    have hletter : (name.chars.head?.map Html.isLetter).getD false = true := name.letter
    unfold Html.readTextName?
    dsimp only
    rw [takeWhile_append_cons hchars hstop, hletter, List.drop_left]
    rfl
  have hnumber : name.first ≠ '#' := by
    intro heq
    have hletter := name.letter
    rw [heq] at hletter
    exact absurd hletter (by decide)
  refine ⟨(anyName? name.chars).elim ('&' :: name.chars) ([·]), ?_⟩
  have htext : '&' :: name.chars ++ [';'] ++ rest = '&' :: (name.chars ++ ';' :: rest) := by
    simp
  rw [htext]
  show Except.ok (Html.referenceStep false (name.chars ++ ';' :: rest)) = _
  unfold Html.referenceStep
  dsimp only
  split
  · rename_i heq
    exact absurd (List.cons.inj heq).1 hnumber
  · rw [hread]
    rfl
  · rename_i heq
    cases heq

/-- An ampersand that begins no reference is read alone. -/
theorem step_ampersand {next : Char} (hletter : Html.isLetter next = false) (hnumber : next ≠ '#')
    (rest : List Char) :
    Html.step false none ('&' :: next :: rest)
      = .ok { tokens := [.text ['&']], rest := next :: rest } := by
  have hname : Html.readTextName? (next :: rest) = none := by
    unfold Html.readTextName?
    dsimp only
    refine if_pos ?_
    rw [List.takeWhile_cons]
    split
    · simp [hletter]
    · rfl
  show Except.ok (Html.referenceStep false (next :: rest)) = _
  unfold Html.referenceStep
  dsimp only
  split
  · rename_i heq
    exact absurd (List.cons.inj heq).1 hnumber
  · rename_i heq
    obtain ⟨rfl, rfl⟩ := List.cons.inj heq
    rw [hname]
    dsimp only
    rw [if_neg (by simp [hletter])]
  · rename_i heq
    cases heq

theorem splitWhere?_here {close : List Char → Option (List Char)} {c : Char}
    {rest behind : List Char} (h : close (c :: rest) = some behind) :
    Html.splitWhere? close (c :: rest) = some ([], behind) := by
  rw [Html.splitWhere?, h]

theorem splitWhere?_cons {close : List Char → Option (List Char)} {c : Char} {rest : List Char}
    (h : close (c :: rest) = none) :
    Html.splitWhere? close (c :: rest)
      = (Html.splitWhere? close rest).map fun x => (c :: x.1, x.2) := by
  rw [Html.splitWhere?, h]

theorem splitWhere?_comment {dashed : Bool} {s : List Char} (h : isCommentText dashed s = true)
    (rest : List Char) :
    Html.splitWhere? Html.commentClose (s ++ '-' :: '-' :: '>' :: rest) = some (s, rest) := by
  induction s generalizing dashed with
  | nil =>
      have hblank : ('>' :: rest).dropWhile isBlank = '>' :: rest :=
        List.dropWhile_cons_of_neg (by decide)
      refine splitWhere?_here ?_
      simp only [Html.commentClose, hblank]
  | cons c s ih =>
      rw [isCommentText] at h
      have hopen : Html.commentClose (c :: (s ++ '-' :: '-' :: '>' :: rest)) = none ∧
          ∃ dashed', isCommentText dashed' s = true := by
        by_cases hc : c = '-'
        · rw [if_pos hc, Bool.and_eq_true] at h
          refine ⟨?_, true, h.2⟩
          cases s with
          | nil => exact absurd h.2 (by decide)
          | cons x s =>
              have hx : x ≠ '-' := by
                intro heq
                have hmore := h.2
                rw [isCommentText, if_pos heq] at hmore
                exact absurd hmore (by simp)
              unfold Html.commentClose
              split
              · rename_i heq
                exact absurd (List.cons.inj (List.cons.inj heq).2).1 hx
              · rfl
        · rw [if_neg hc] at h
          refine ⟨?_, false, h⟩
          unfold Html.commentClose
          split
          · rename_i heq
            exact absurd (List.cons.inj heq).1 hc
          · rfl
      obtain ⟨hnone, dashed', hrest⟩ := hopen
      rw [List.cons_append, splitWhere?_cons hnone, ih hrest]
      rfl

/-- A comment is read up to its end. -/
theorem step_comment {s : List Char} (h : isCommentText false s = true) (rest : List Char) :
    Html.step false none ("<!--".toList ++ s ++ "-->".toList ++ rest)
      = .ok { tokens := [.comment s], rest := rest } := by
  have hsplit := splitWhere?_comment h rest
  have htext : "<!--".toList ++ s ++ "-->".toList ++ rest
      = '<' :: '!' :: '-' :: '-' :: (s ++ '-' :: '-' :: '>' :: rest) := by
    simp
  rw [htext]
  show Html.declarationStep false ('-' :: '-' :: (s ++ '-' :: '-' :: '>' :: rest)) = _
  unfold Html.declarationStep
  split
  · rename_i heq
    obtain rfl := (List.cons.inj (List.cons.inj heq).2).2
    rw [hsplit]
  · rename_i heq
    exact absurd (List.cons.inj heq).1 (by decide)
  · rename_i hnone _
    exact absurd rfl (hnone _)

theorem step_doctype {s : List Char} (h : '>' ∉ s) (rest : List Char) :
    Html.step false none ("<!doctype".toList ++ s ++ ['>'] ++ rest)
      = .ok { tokens := [.doctype (s.drop 1)], rest := rest } := by
  have hsplit := splitAt?_append rest h
  have htext : "<!doctype".toList ++ s ++ ['>'] ++ rest
      = '<' :: '!' :: 'd' :: 'o' :: 'c' :: 't' :: 'y' :: 'p' :: 'e' :: (s ++ '>' :: rest) := by
    simp
  rw [htext]
  show Html.declarationStep false
    ('d' :: 'o' :: 'c' :: 't' :: 'y' :: 'p' :: 'e' :: (s ++ '>' :: rest)) = _
  have hword : Html.dropWord? "doctype".toList
      ('d' :: 'o' :: 'c' :: 't' :: 'y' :: 'p' :: 'e' :: (s ++ '>' :: rest))
      = some (s ++ '>' :: rest) := rfl
  unfold Html.declarationStep
  dsimp only
  rw [hword]
  dsimp only
  rw [hsplit]
  rfl

/-! ## Raw text -/

theorem lowerAfter_ascii {before s : List Char} (h : ∀ c ∈ s, c.toNat < 0x80) :
    lowerAfter before s = s.map Char.toLower := by
  induction s generalizing before with
  | nil => rfl
  | cons c rest ih =>
      have hc := h c (by simp)
      have hsigma : ¬ (c.toNat == 0x3A3) = true := by
        simp only [beq_iff_eq]
        omega
      rw [lowerAfter, if_neg hsigma, lowerChar, if_pos hc, ih fun x hx => h x (by simp [hx])]
      rfl

theorem toList_lowerName (name : TagName) :
    (Html.lowerName name.chars).toList = name.chars.map Char.toLower := by
  unfold Html.lowerName
  rw [String.toList_ofList]
  exact lowerAfter_ascii fun c hc => ascii_of_isEndTagNameChar (name.isEndTagNameChar hc)

theorem dropWord?_map (s rest : List Char) :
    Html.dropWord? (s.map Char.toLower) (s ++ rest) = some rest := by
  induction s with
  | nil => cases rest <;> rfl
  | cons c s ih =>
      rw [List.map_cons, List.cons_append, Html.dropWord?, if_pos rfl, ih]

/-- The end tag of a raw text element ends it. -/
theorem rawClose_endTag (name : TagName) (rest : List Char) :
    Html.rawClose (Html.lowerName name.chars) (endTagOf name.chars ++ rest) = some rest := by
  have hblank := (nameChar (name.isEndTagNameChar (List.mem_cons_self ..))).2.1
  have hinner : (name.chars ++ '>' :: rest).dropWhile isBlank = name.chars ++ '>' :: rest :=
    List.dropWhile_cons_of_neg (by simp [hblank])
  have hclose : ('>' :: rest).dropWhile isBlank = '>' :: rest :=
    List.dropWhile_cons_of_neg (by decide)
  have htext : endTagOf name.chars ++ rest = '<' :: '/' :: (name.chars ++ '>' :: rest) := by
    simp [endTagOf]
  rw [htext, Html.rawClose, hinner, toList_lowerName, dropWord?_map]
  dsimp only
  rw [hclose]
  rfl

theorem rawClose_cons {name : String} {c : Char} (h : c ≠ '<') (rest : List Char) :
    Html.rawClose name (c :: rest) = none := by
  unfold Html.rawClose
  split
  · rename_i heq
    exact absurd (List.cons.inj heq).1 h
  · rfl

theorem splitWhere?_plain {name : String} {s : List Char} (hs : '<' ∉ s) (rest : List Char) :
    Html.splitWhere? (Html.rawClose name) (s ++ rest)
      = (Html.splitWhere? (Html.rawClose name) rest).map fun x => (s ++ x.1, x.2) := by
  induction s with
  | nil => simp
  | cons c s ih =>
      have hc : c ≠ '<' := fun heq => hs (by simp [heq])
      rw [List.cons_append, splitWhere?_cons (rawClose_cons hc _),
        ih fun hmem => hs (by simp [hmem]), Option.map_map]
      rfl

/-- A marker element in raw text does not end it. -/
theorem splitWhere?_element {name : String} (hname : Html.rawElements.contains name = true)
    (rest : List Char) :
    Html.splitWhere? (Html.rawClose name) (({} : Markers).element .html ++ rest)
      = (Html.splitWhere? (Html.rawClose name) rest).map
          fun x => (({} : Markers).element .html ++ x.1, x.2) := by
  let start := "span data-dtpp-nodes=\"\">".toList
  let stop := "/span>".toList
  have helement : ({} : Markers).element .html = '<' :: (start ++ '<' :: stop) := by decide +kernel
  have hstart : '<' ∉ start := by decide
  have hstop : '<' ∉ stop := by decide
  have hopen : Html.rawClose name ('<' :: (start ++ '<' :: (stop ++ rest))) = none := rfl
  have hclose : Html.rawClose name ('<' :: (stop ++ rest)) = none := by
    simp only [Html.rawElements, List.contains_cons, List.contains_nil, Bool.or_false,
      Bool.or_eq_true, beq_iff_eq] at hname
    rcases hname with rfl | rfl <;> rfl
  have htext : ({} : Markers).element .html ++ rest = '<' :: (start ++ '<' :: (stop ++ rest)) := by
    rw [helement, List.cons_append, List.append_assoc, List.cons_append]
  rw [htext, splitWhere?_cons hopen, splitWhere?_plain hstart, splitWhere?_cons hclose,
    splitWhere?_plain hstop, helement, Option.map_map, Option.map_map, Option.map_map]
  rfl

/-- Raw text goes on up to the end tag of its element. -/
theorem splitWhere?_markedText {content : List (Option Char)} (h : some '<' ∉ content)
    (name : TagName) (hname : Html.rawElements.contains (Html.lowerName name.chars) = true)
    (rest : List Char) :
    Html.splitWhere? (Html.rawClose (Html.lowerName name.chars))
        (Piece.markedText content ++ (endTagOf name.chars ++ rest))
      = some (Piece.markedText content, rest) := by
  induction content with
  | nil => exact splitWhere?_here (rawClose_endTag name rest)
  | cons x content ih =>
      have hcontent := ih fun hmem => h (by simp [hmem])
      cases x with
      | none =>
          have htext : Piece.markedText (none :: content)
              = ({} : Markers).element .html ++ Piece.markedText content := by
            simp [Piece.markedText]
          rw [htext, List.append_assoc, splitWhere?_element hname, hcontent]
          rfl
      | some c =>
          have hc : c ≠ '<' := fun heq => h (by simp [heq])
          have htext : Piece.markedText (some c :: content) = c :: Piece.markedText content := by
            simp [Piece.markedText]
          rw [htext, List.cons_append, splitWhere?_cons (rawClose_cons hc _), hcontent]
          rfl

end LiveTemplate.Plain
