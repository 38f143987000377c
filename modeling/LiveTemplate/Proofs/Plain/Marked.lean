import LiveTemplate.Proofs.Plain.Tokens

/-!
# Marked documents are read as they are written

The note of a tag is one more attribute of it (`Tag.marked_append`), and what it lists is read as it
was written, since no name in it holds a quote or a reference (`read_noteAttribute`).  So a reader
finds the elements of a document, with the markers in their places: `begins_marked`.
-/

namespace LiveTemplate.Plain

set_option autoImplicit false

open Text

/-! ## Words and notes -/

namespace Word

/-- The attribute that a reader sees in a word. -/
def attribute? : Word → Option Attribute
  | .flag name => some ⟨name.chars, none⟩
  | .quoted name sign quote value _ => some ⟨name.chars, some ⟨sign, some quote, written value⟩⟩
  | .bare name sign value _ => some ⟨name.chars, some ⟨sign, none, value.chars⟩⟩
  | .filled name sign => some ⟨name.chars, some ⟨sign, some .double, []⟩⟩
  | .hole => none

theorem text_attribute? (w : Word) : w.attribute?.elim [] Attribute.text = w.marked := by
  cases w with
  | flag name => exact List.append_nil _
  | quoted | bare | filled =>
      simp [attribute?, Attribute.text, Attribute.valueText, Assigned.text, Assigned.quoted, marked,
        Quote.char]
  | hole => rfl

theorem legible_attribute? (w : Word) : ∀ a ∈ w.attribute?, a.Legible := by
  cases w with
  | flag name =>
      rintro _ ⟨⟩
      exact ⟨name.nonempty, name.plain, nofun⟩
  | quoted name sign quote value closed =>
      rintro _ ⟨⟩
      refine ⟨name.nonempty, name.plain, ?_⟩
      rintro _ ⟨⟩ hmem
      exact closed (by simpa [written] using hmem)
  | bare name sign value full =>
      rintro _ ⟨⟩
      refine ⟨name.nonempty, name.plain, ?_⟩
      rintro _ ⟨⟩
      exact ⟨value, rfl⟩
  | filled name sign =>
      rintro _ ⟨⟩
      refine ⟨name.nonempty, name.plain, ?_⟩
      rintro _ ⟨⟩
      exact List.not_mem_nil
  | hole => exact nofun

/-- A word without placeholders is all that a reader sees of it. -/
theorem runsOn_attribute? {w : Word} (h : w.names = []) :
    w.attribute?.any Attribute.runsOn = w.runsOn := by
  cases w with
  | bare name sign value full =>
      cases full with
      | false => rfl
      | true => cases h
  | flag | quoted | filled | hole => rfl

/-- What may stand in a note: the name of an attribute, without a quote or a reference. -/
def IsNoted (name : List Char) : Prop := NameText name ∧ '"' ∉ name ∧ '&' ∉ name

theorem isNoted_lower (name : AttributeName) : IsNoted (lower name.chars) := by
  have hkeeps : ∀ c, isLowered c = false → c ∉ name.chars → c ∉ lower name.chars := by
    intro c hc hnot hmem
    rcases mem_lower hmem with hold | hlowered
    · exact hnot hold
    · exact absurd hlowered (by simp [hc])
  exact ⟨nameText_spellName .html name.plain, hkeeps '"' (by decide) name.unquoted,
    hkeeps '&' (by decide) name.literal⟩

theorem isNoted_names {w : Word} {name : List Char} (h : name ∈ w.names) : IsNoted name := by
  cases w with
  | flag owner => cases h
  | quoted owner sign quote value closed =>
      exact List.eq_of_mem_replicate h ▸ isNoted_lower owner
  | bare owner sign value full =>
      cases full with
      | false => cases h
      | true => exact List.mem_singleton.mp h ▸ isNoted_lower owner
  | filled owner sign => exact List.mem_singleton.mp h ▸ isNoted_lower owner
  | hole => exact List.mem_singleton.mp h ▸ ⟨NameText.nil, nofun, nofun⟩

end Word

theorem mem_join {names : List (List Char)} {c : Char} (h : c ∈ Markers.join names) :
    c = Markers.delimiter ∨ ∃ name ∈ names, c ∈ name := by
  unfold Markers.join at h
  induction names with
  | nil => cases h
  | cons name rest ih =>
      cases rest with
      | nil =>
          rw [List.intercalate_singleton] at h
          exact .inr ⟨name, by simp, h⟩
      | cons next rest =>
          rw [List.intercalate_cons_cons, List.append_assoc] at h
          rcases List.mem_append.mp h with hname | hmore
          · exact .inr ⟨name, by simp, hname⟩
          · rcases List.mem_append.mp hmore with hdelimiter | hlater
            · exact .inl (List.mem_singleton.mp hdelimiter)
            · exact (ih hlater).imp_right fun ⟨other, hother, hc⟩ =>
                ⟨other, List.mem_cons_of_mem _ hother, hc⟩

/-- A value without references is decoded to itself. -/
theorem decodeValue_of_not_mem {s : List Char} (h : '&' ∉ s) : decodeValue s = s := by
  have hall : ∀ count (s : List Char), '&' ∉ s → decodeValueUpTo count s = s := by
    intro count s h
    induction s generalizing count with
    | nil => cases count <;> rfl
    | cons c rest ih =>
        rw [decodeValueUpTo.eq_def]
        split
        · rfl
        · rename_i heq
          cases heq
        · rename_i heq
          exact absurd (List.cons.inj heq).1 fun hc => h (by simp [hc])
        · rename_i heq
          obtain ⟨rfl, rfl⟩ := List.cons.inj heq
          rw [ih _ fun hmem => h (by simp [hmem])]
  exact hall s.length s h

/-- The note of a tag as an attribute. -/
def noteAttribute (names : List (List Char)) : Attribute :=
  ⟨({} : Markers).attributes.toList, some ⟨.tight, some .double, Markers.join names⟩⟩

theorem legible_noteAttribute {names : List (List Char)} (h : ∀ name ∈ names, Word.IsNoted name) :
    (noteAttribute names).Legible where
  nonempty := (by decide : ({} : Markers).attributes.toList ≠ [])
  nameText := List.all_eq_true.mp
    (by decide : ({} : Markers).attributes.toList.all Html.isAttributeNameChar = true)
  value := by
    rintro _ ⟨⟩ hmem
    rcases mem_join hmem with hdelimiter | ⟨name, hname, hquote⟩
    · exact absurd hdelimiter (by decide)
    · exact (h name hname).2.1 hquote

theorem read_noteAttribute {names : List (List Char)} (h : ∀ name ∈ names, Word.IsNoted name) :
    (noteAttribute names).read
      = (({} : Markers).attributes, String.ofList (Markers.join names)) := by
  have hliteral : '&' ∉ Markers.join names := by
    intro hmem
    rcases mem_join hmem with hdelimiter | ⟨name, hname, hreference⟩
    · exact absurd hdelimiter (by decide)
    · exact (h name hname).2.2 hreference
  have hname : Html.lowerName ({} : Markers).attributes.toList = ({} : Markers).attributes := by
    decide +kernel
  unfold Attribute.read noteAttribute
  rw [hname]
  show (_, String.ofList (decodeValue (Markers.join names))) = _
  rw [decodeValue_of_not_mem hliteral]

theorem note_eq (names : List (List Char)) :
    ({} : Markers).note names = ' ' :: (noteAttribute names).text := by
  unfold Markers.note noteAttribute Attribute.text Attribute.valueText
  generalize ({} : Markers).attributes.toList = chars
  simp [Assigned.text, Assigned.quoted, Quote.char]

/-- The gap in front of the note of a tag. -/
def noteGap (tail : Spacing) : Gap where
  chars := tail.chars ++ [' ']
  spacing := List.forall_mem_append.mpr ⟨tail.spacing, List.forall_mem_singleton.mpr (by decide)⟩
  nonempty := by simp

/-! ## Tags -/

namespace Tag

/-- The words that a reader sees in a tag with its marker. -/
def readWords (t : Tag) : List (Gap × Option Attribute) :=
  t.words.map (fun w => (w.1, w.2.attribute?)) ++
    if t.names = [] then [] else [(noteGap t.tail, some (noteAttribute t.names))]

/-- The spacing behind these words. -/
def readTail (t : Tag) : Spacing := if t.names = [] then t.tail else .empty

theorem isNoted_names (t : Tag) : ∀ name ∈ t.names, Word.IsNoted name := by
  intro name hname
  obtain ⟨w, -, hw⟩ := List.mem_flatMap.mp hname
  exact Word.isNoted_names hw

theorem legible_readWords (t : Tag) : ∀ w ∈ t.readWords, ∀ a ∈ w.2, a.Legible := by
  intro w hw
  rcases List.mem_append.mp hw with hword | hnote
  · obtain ⟨word, -, rfl⟩ := List.mem_map.mp hword
    exact word.2.legible_attribute?
  · split at hnote
    · cases hnote
    · rw [List.mem_singleton.mp hnote]
      rintro _ ⟨⟩
      exact legible_noteAttribute t.isNoted_names

theorem apart_readWords (t : Tag) : Apart t.readWords t.readTail t.closed := by
  intro hclosed htail
  unfold readTail at htail
  unfold readWords
  by_cases hnames : t.names = []
  · rw [if_pos hnames] at htail ⊢
    have hapart := t.apart hclosed htail
    rw [List.append_nil, List.getLast?_map]
    cases hlast : t.words.getLast? with
    | none => rfl
    | some w =>
        have hnone : w.2.names = [] :=
          List.flatMap_eq_nil_iff.mp hnames w (List.mem_of_getLast? hlast)
        rw [hlast] at hapart
        exact (Word.runsOn_attribute? hnone).trans hapart
  · rw [if_neg hnames, List.getLast?_concat]
    rfl

/-- A tag with its marker is made up of its words. -/
theorem marked_append (t : Tag) (rest : List Char) :
    t.marked ++ rest
      = '<' :: (t.name.chars ++ body t.readWords t.readTail t.closed rest) := by
  have hwords : (t.words.map fun w => (w.1, w.2.attribute?)).flatMap
      (fun w => w.1.chars ++ w.2.elim [] Attribute.text)
        = t.words.flatMap fun w => w.1.chars ++ w.2.marked := by
    rw [List.flatMap_map]
    simp only [Word.text_attribute?]
  unfold marked body readWords readTail note
  split
  · simp [hwords]
  · simp [hwords, noteGap, note_eq]

/-- The element that a tag with its marker begins. -/
def begun (t : Tag) : Element :=
  Html.elementOf (Html.lowerName t.name.chars)
    ((t.readWords.filterMap (·.2)).map Attribute.read)

/-- A tag with its marker is read as it is written. -/
theorem step_marked (t : Tag) (rest : List Char) :
    Html.step false none (t.marked ++ rest) = .ok {
      tokens := [.startTag (Html.lowerName t.name.chars)
        ((t.readWords.filterMap (·.2)).map Attribute.read) t.closed],
      rest := rest,
      raw := if t.isRaw then some (Html.lowerName t.name.chars) else none } := by
  rw [marked_append]
  exact step_startTag t.name t.readTail t.closed rest t.legible_readWords t.apart_readWords

theorem length_lt_marked (t : Tag) (rest : List Char) :
    rest.length < (t.marked ++ rest).length := by
  simp [marked]
  omega

end Tag

namespace Begins

variable {rest : List Char} {elements : List Element}

theorem startTag {t : Tag} (hparsed : t.isRaw = false) (h : Begins rest elements) :
    Begins (t.marked ++ rest) (t.begun :: elements) := by
  have hstep := t.step_marked rest
  rw [hparsed] at hstep
  exact h.step hstep rfl rfl (t.length_lt_marked rest)

/-- The placeholders of raw text begin no elements. -/
theorem raw {t : Tag} {content : List (Option Char)} (hraw : t.isRaw = true)
    (hplain : some '<' ∉ content) (h : Begins rest elements) :
    Begins (t.marked ++ (Piece.markedText content ++ (endTagOf t.name.chars ++ rest)))
      (t.begun :: elements) := by
  obtain ⟨tokens, htokens, rfl⟩ := h
  have hname : Html.rawElements.contains (Html.lowerName t.name.chars) = true := by
    simp only [Tag.isRaw, Bool.and_eq_true] at hraw
    exact hraw.2
  have hstart := t.step_marked (Piece.markedText content ++ (endTagOf t.name.chars ++ rest))
  rw [hraw] at hstart
  have hcontent := splitWhere?_markedText hplain t.name hname rest
  let text := if (Piece.markedText content).isEmpty then [] else
    [Html.Token.text (Piece.markedText content)]
  have hraw : Html.step false (some (Html.lowerName t.name.chars))
      (Piece.markedText content ++ (endTagOf t.name.chars ++ rest)) = .ok {
        tokens := text ++ [.endTag (Html.lowerName t.name.chars)], rest := rest } := by
    unfold Html.step
    dsimp only
    rw [hcontent]
  have htext : text.filterMap Html.Token.element? = [] := by
    dsimp only [text]
    split <;> rfl
  refine ⟨_, .step hstart rfl (t.length_lt_marked _) (.step hraw rfl ?_ htokens), ?_⟩
  · simp [endTagOf]
    omega
  · rw [List.filterMap_append, List.filterMap_append, List.filterMap_append, htext]
    rfl

end Begins

/-! ## Placeholders in text -/

/-- The name of the elements that stand for placeholders in text. -/
def holeName : TagName where
  first := 's'
  rest := "pan".toList
  letter := by decide
  plain := List.all_eq_true.mp (by decide : "pan".toList.all Html.isEndTagNameChar = true)

/-- The marker of these elements as a word. -/
def holeWord : Gap × Option Attribute :=
  (.blank, some ⟨({} : Markers).nodes.toList, some ⟨.tight, some .double, []⟩⟩)

theorem legible_holeWord : ∀ w ∈ [holeWord], ∀ a ∈ w.2, a.Legible := by
  refine List.forall_mem_singleton.mpr ?_
  rintro _ ⟨⟩
  refine ⟨(by decide : ({} : Markers).nodes.toList ≠ []), List.all_eq_true.mp
    (by decide : ({} : Markers).nodes.toList.all Html.isAttributeNameChar = true), ?_⟩
  rintro _ ⟨⟩
  exact List.not_mem_nil

theorem element_append (rest : List Char) :
    ({} : Markers).element .html ++ rest
      = '<' :: (holeName.chars ++ body [holeWord] .empty false
          (endTagOf holeName.chars ++ rest)) := by
  have helement : ({} : Markers).element .html
      = '<' :: (holeName.chars ++ body [holeWord] .empty false (endTagOf holeName.chars)) := by
    decide +kernel
  rw [helement]
  simp [body]

/-- The element that stands for a placeholder in text. -/
def holeElement : Element := Html.elementOf "span" [(({} : Markers).nodes, "")]

theorem step_element (rest : List Char) :
    Html.step false none (({} : Markers).element .html ++ rest) = .ok {
      tokens := [.startTag "span" [(({} : Markers).nodes, "")] false],
      rest := endTagOf holeName.chars ++ rest } := by
  have hname : Html.lowerName holeName.chars = "span" := by decide +kernel
  have hread : ([holeWord].filterMap (·.2)).map Attribute.read
      = [(({} : Markers).nodes, "")] := by
    decide +kernel
  have hparsed : (!false && Html.rawElements.contains "span") = false := by decide +kernel
  have hstep := step_startTag holeName .empty false (endTagOf holeName.chars ++ rest)
    legible_holeWord (fun hclosed => absurd hclosed (by decide))
  rw [hread, hname, hparsed] at hstep
  rw [element_append]
  exact hstep

/-- A placeholder in text begins an element. -/
theorem Begins.hole {rest : List Char} {elements : List Element} (h : Begins rest elements) :
    Begins (({} : Markers).element .html ++ rest) (holeElement :: elements) := by
  have hlength : (endTagOf holeName.chars).length < (({} : Markers).element .html).length := by
    decide +kernel
  have hshorter : (endTagOf holeName.chars ++ rest).length
      < (({} : Markers).element .html ++ rest).length := by
    simp only [List.length_append]
    omega
  exact (h.endTag holeName).step (step_element rest) rfl rfl hshorter

/-! ## Documents -/

namespace Piece

/-- The elements that a piece with its markers begins. -/
def begun : Piece → List Element
  | .hole => [holeElement]
  | .startTag t _ | .raw t .. => [t.begun]
  | _ => []

/-- A piece with its markers is read in front of whatever is read. -/
theorem begins_append {rest : List Char} {elements : List Element} (x : Piece)
    (h : Begins rest elements) : Begins (x.marked ++ rest) (x.begun ++ elements) := by
  cases x with
  | text s plain =>
      refine h.running fun c hc => ?_
      simp [isRunning, plain c hc]
  | reference name plain =>
      obtain ⟨s, hstep⟩ := step_reference name plain rest
      exact h.step hstep rfl rfl (by simp; omega)
  | ampersand next letter plain =>
      have hnext : ∀ c ∈ [next], isRunning c = true := by
        simp only [List.mem_cons, List.not_mem_nil, or_false, not_or] at plain
        exact List.forall_mem_singleton.mpr (by simp [isRunning, plain])
      have hnumber : next ≠ '#' := fun heq => plain (by simp [heq])
      exact (h.running hnext).step (step_ampersand letter hnumber rest) rfl rfl (by simp)
  | hole => exact h.hole
  | startTag t parsed => exact h.startTag parsed
  | endTag name => exact h.endTag name
  | comment s plain => exact h.step (step_comment plain rest) rfl rfl (by simp; omega)
  | doctype s plain =>
      exact h.step (step_doctype (fun hmem => (plain _ hmem).1 rfl) rest) rfl rfl (by simp; omega)
  | raw t raw content plain =>
      have hraw := h.raw raw plain
      rw [← List.append_assoc, ← List.append_assoc] at hraw
      exact hraw

end Piece

/-- A document with its markers is read altogether, and its elements begin in it. -/
theorem begins_marked (doc : Document) : Begins doc.marked (doc.flatMap Piece.begun) := by
  induction doc with
  | nil => exact .nil
  | cons x rest ih =>
      have hall := x.begins_append ih
      simpa [Document.marked] using hall

end LiveTemplate.Plain
