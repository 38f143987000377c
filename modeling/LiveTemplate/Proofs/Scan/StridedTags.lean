import LiveTemplate.Proofs.Plain.Scanned
import LiveTemplate.Proofs.Scan.ReadOn

/-!
# Tags read in strides

A stride among attributes begins and ends between attributes.  The reading may stand elsewhere at
its end, behind a name or a value that no blank has ended, and goes on from there as from between
attributes (`makes_attributeStride`).  So it does behind the name of an element (`makes_passName`),
although it has watched for a comment in it.
-/

namespace LiveTemplate

set_option autoImplicit false

open Text

variable {m : Markers} {d : Dialect} {index : Nat} {isLast : Bool}

/-! ## Attributes -/

namespace Cursor

variable {name : List Char} {c : Char}

theorem foldl_next_between (hne : name ≠ []) (hname : NameText name) :
    name.foldl next .between = .attributeName name := by
  obtain ⟨c, rest, rfl⟩ := List.exists_cons_of_ne_nil hne
  have hfirst : between.next c = .attributeName [c] :=
    Plain.StartsWord.next_name trivial (hname c List.mem_cons_self)
  rw [List.foldl_cons, hfirst,
    Plain.foldl_next_attributeName [c] fun b hb => hname b (List.mem_cons_of_mem c hb)]
  rfl

/-- A name that no blank has ended is ended by a mark. -/
theorem next_attributeName_of_end (hend : Html.isAttributeNameChar c = false)
    (hblank : isBlank c = false) :
    (attributeName name).next c = if c = '=' then .beforeValue name else between.next c := by
  refine (if_neg (by simp [hblank])).trans ?_
  split
  · rfl
  · next hequals =>
      have hmark : c = '/' ∨ c = '>' := by
        simpa [Html.isAttributeNameChar, hblank, hequals, or_iff_not_imp_left] using hend
      exact if_pos (by simpa using hmark)

end Cursor

/-- The end of the attributes of a tag, as a stride over the fragment. -/
def TagExit.over (m : Markers) (d : Dialect) (index : Nat) (isLast : Bool) (h : ReadingHead) :
    TagExit → Stride
  | .closes stop => .goesOn (h.put .between stop)
  | .breaksOff cursor => h.halt m d index isLast cursor

/-- A stride among attributes, as a stride over the fragment. -/
def TagStride.over (m : Markers) (d : Dialect) (index : Nat) (isLast : Bool) (h : ReadingHead) :
    TagStride → Stride
  | .goesOn next => .goesOn (h.put .between next)
  | .leaves exit => exit.over m d index isLast h

namespace ReadingHead

variable {h y : ReadingHead} {x z : Cursor} {i : Nat} {c : Char} {s name : List Char}
  {stride : Stride}

/-- A value that is not quoted. -/
theorem makes_bare (hc : h.text[i]? = some c) (hblank : isBlank c = false) (hdouble : c ≠ '"')
    (hsingle : c ≠ '\'') :
    (h.put (.beforeValue name) i).Makes m d index isLast
      (TagStride.over m d index isLast h
        (if h.text.length ≤ passOver Html.isBareValueChar h.text i then
          .leaves (.breaksOff (.unquoted name))
        else .goesOn (passOver Html.isBareValueChar h.text i))) := by
  by_cases hclose : c = '>'
  · subst hclose
    rw [passOver_of_getElem? hc (by decide), if_neg (Nat.not_le.mpr (lt_length_of_getElem? hc))]
    exact makes_between rfl (hc ▸ rfl)
  · have hnext : (Cursor.beforeValue name).next c = .unquoted name := by
      simp [Cursor.next, hblank, hdouble, hsingle, hclose]
    have hstays : ∀ b, Html.isBareValueChar b = true →
        (Cursor.unquoted name).next b = .unquoted name ∧
          (b = '>' → (Cursor.unquoted name).inTag = false) := by
      intro b hb
      simp only [Html.isBareValueChar, Bool.not_eq_true', Bool.or_eq_false_iff,
        beq_eq_false_iff_ne] at hb
      exact ⟨by simp [Cursor.next, hb], fun heq => absurd heq hb.2⟩
    have hbare : Html.isBareValueChar c = true := by simp [Html.isBareValueChar, hblank, hclose]
    have hon : (h.put (.beforeValue name) i).Makes m d index isLast
        (.goesOn (h.put (.unquoted name) (passOver Html.isBareValueChar h.text i))) := by
      refine (makes_char hc fun heq => absurd heq hclose).trans ?_
      rw [hnext, ← passOver_succ hc hbare]
      exact makes_passOver hstays
    split
    · next hend => exact hon.trans (makes_end (List.getElem?_eq_none_iff.mpr hend) (.refl _))
    · next hlt =>
        obtain ⟨b, hb⟩ : ∃ b, h.text[passOver Html.isBareValueChar h.text i]? = some b :=
          ⟨_, List.getElem?_eq_getElem (Nat.not_le.mp hlt)⟩
        refine hon.trans (makes_between rfl (hb ▸ ?_))
        have hstop := not_of_getElem?_passOver hb
        simp only [Html.isBareValueChar, Bool.not_eq_false', Bool.or_eq_true, beq_iff_eq] at hstop
        rcases hstop with hstop | rfl
        · have hne : b ≠ '>' := fun heq => absurd (heq ▸ hstop) (by decide)
          simp [Cursor.AsBetween, Cursor.next, Cursor.nextBetween, hstop, hne]
        · rfl

/-- A value, in front of which the blanks have been passed over. -/
theorem makes_valueStride (hblank : ∀ c, h.text[i]? = some c → isBlank c = false) :
    (h.put (.beforeValue name) i).Makes m d index isLast
      ((valueStride h.text name i).over m d index isLast h) := by
  unfold valueStride
  cases hc : h.text[i]? with
  | none => exact makes_end hc (.refl _)
  | some c =>
      dsimp only
      by_cases hquote : c = '"' ∨ c = '\''
      · have hnext : (Cursor.beforeValue name).next c = .quoted c name false := by
          simp [Cursor.next, hblank c hc, hquote]
        have hopen : c ≠ '>' := by
          rintro rfl
          exact absurd hquote (by decide)
        rw [if_pos (by simpa using hquote)]
        refine (makes_char hc fun heq => absurd heq hopen).trans ?_
        rw [hnext]
        cases hstop : findWord [c] h.text (i + 1) with
        | none => exact makes_unfound hstop (fun b hb => if_neg hb) rfl
        | some stop => exact makes_found hstop (fun b hb => if_neg hb) rfl (if_pos rfl)
      · rw [if_neg (by simpa using hquote)]
        exact makes_bare hc (hblank c hc) (fun heq => hquote (.inl heq))
          fun heq => hquote (.inr heq)

/-- Blanks behind the name of an attribute. -/
theorem makes_blanks (hc : h.text[i]? = some c) (hblank : isBlank c = true) :
    (h.put (.attributeName name) i).Makes m d index isLast
      (.goesOn (h.put (.afterAttribute name) (passOver isBlank h.text i))) := by
  have hopen : c ≠ '>' := fun heq => absurd (heq ▸ hblank) (by decide)
  refine (makes_char hc fun heq => absurd heq hopen).trans ?_
  rw [show (Cursor.attributeName name).next c = .afterAttribute name from if_pos hblank,
    ← passOver_succ hc hblank]
  exact makes_passBlanks fun b hb => if_pos hb

/-- Behind the name of an attribute, which may be missing, and the blanks that follow it an equals
sign leads to its value, and everything else is read as from between attributes. -/
theorem makes_attributeName (m : Markers) (d : Dialect) (index : Nat) (isLast : Bool)
    (h : ReadingHead) (i : Nat) :
    let stop := passOver Html.isAttributeNameChar h.text i
    let sign := passOver isBlank h.text stop
    ∃ y : Cursor, (h.put .between i).Makes m d index isLast (.goesOn (h.put y sign)) ∧
      y.inTag = true ∧ y.EndsAs .between ∧ ∀ c, h.text[sign]? = some c → y.next c =
        if c = '=' then .beforeValue ((h.text.drop i).take (stop - i))
        else Cursor.between.next c := by
  intro stop sign
  rw [show (h.text.drop i).take (stop - i) = _ from take_passOver ..]
  have hname : NameText ((h.text.drop i).takeWhile Html.isAttributeNameChar) :=
    fun _ hb => List.mem_takeWhile_imp hb
  have hblank : ∀ c, h.text[sign]? = some c → isBlank c = false :=
    fun c hc => not_of_getElem?_passOver hc
  have hword : (h.put .between i).Makes m d index isLast (.goesOn (h.put
      (((h.text.drop i).takeWhile Html.isAttributeNameChar).foldl Cursor.next .between) stop)) :=
    makes_word (List.takeWhile_prefix Html.isAttributeNameChar)
      fun hclose => (Plain.ne_of_isAttributeNameChar (hname '>' hclose)).2.2 rfl
  generalize (h.text.drop i).takeWhile Html.isAttributeNameChar = name at hname hword ⊢
  by_cases hnone : name = []
  · subst hnone
    refine ⟨.between, hword.trans (makes_passBlanks fun b hb => ?_), rfl, .refl _, fun c _ => ?_⟩
    · exact (Cursor.between_stays (by simp [hb])).1
    · split
      · next hequals => exact hequals ▸ rfl
      · rfl
  · rw [Cursor.foldl_next_between hnone hname] at hword
    by_cases hbehind : ∃ b, h.text[stop]? = some b ∧ isBlank b = true
    · obtain ⟨b, hb, hbblank⟩ := hbehind
      exact ⟨.afterAttribute name, hword.trans (makes_blanks hb hbblank), rfl,
        ⟨rfl, fun _ _ => rfl⟩, fun c hc => if_neg (by simp [hblank c hc])⟩
    · have hsign : sign = stop :=
        passOver_eq_self fun b hb => by simpa using fun hblank => hbehind ⟨b, hb, hblank⟩
      exact ⟨.attributeName name, hsign ▸ hword, rfl, ⟨rfl, fun _ _ => rfl⟩, fun c hc =>
        Cursor.next_attributeName_of_end (not_of_getElem?_passOver (hsign ▸ hc)) (hblank c hc)⟩

/-- Every stride among attributes is made as the fragment is read on. -/
theorem makes_attributeStride (m : Markers) (d : Dialect) (index : Nat) (isLast : Bool)
    (h : ReadingHead) (i : Nat) :
    (h.put .between i).Makes m d index isLast
      ((attributeStride h.text i).over m d index isLast h) := by
  refine (makes_passOver fun _ hb => Cursor.between_stays hb).trans ?_
  unfold attributeStride
  generalize passOver (fun c => isBlank c || c = '/') h.text i = start
  dsimp only
  cases hc : h.text[start]? with
  | none => exact makes_end hc (.refl _)
  | some c =>
      dsimp only
      by_cases hclose : c = '>'
      · rw [if_pos hclose]
        exact .refl _
      · rw [if_neg hclose]
        obtain ⟨y, hon, htag, hend, hnext⟩ := makes_attributeName m d index isLast h start
        generalize (h.text.drop start).take (passOver Html.isAttributeNameChar h.text start - start)
          = name at hnext ⊢
        generalize passOver isBlank h.text (passOver Html.isAttributeNameChar h.text start) = sign
          at hon hnext ⊢
        cases hsign : h.text[sign]? with
        | none => exact hon.trans (makes_end hsign hend)
        | some c =>
            have hcnext := hnext c hsign
            dsimp only
            split
            · next hequals =>
                subst hequals
                rw [if_pos rfl] at hcnext
                refine hon.trans ((makes_char hsign nofun).trans ?_)
                rw [hcnext]
                have hstays : ∀ b, isBlank b = true →
                    (Cursor.beforeValue name).next b = .beforeValue name := fun b hb => if_pos hb
                exact (makes_passBlanks hstays).trans
                  (makes_valueStride fun b hb => not_of_getElem?_passOver hb)
            · next hequals =>
                rw [if_neg hequals] at hcnext
                exact hon.trans (makes_between htag (hsign ▸ hcnext))

/-- From the attributes of a tag the reading comes to where the strides among them come to. -/
theorem makes_leaveTag (m : Markers) (d : Dialect) (index : Nat) (isLast : Bool)
    (h : ReadingHead) (i : Nat) :
    (h.put .between i).Makes m d index isLast ((leaveTag h.text i).over m d index isLast h) := by
  fun_induction leaveTag h.text i with
  | case1 i next hstride ih =>
      have hon := makes_attributeStride m d index isLast h i
      rw [hstride] at hon
      exact hon.trans ih
  | case2 i exit hstride =>
      have hon := makes_attributeStride m d index isLast h i
      rwa [hstride] at hon

end ReadingHead

/-! ## Names of elements -/

namespace Cursor

variable {c : Char} {s : List Char}

/-- A cursor from which the end of the name of an element is read as from the name itself. -/
def EndsName (x : Cursor) : Prop := x = .elementName ∨ x = .bang ∨ x = .bangDash

theorem EndsName.inTag {x : Cursor} (hx : x.EndsName) : x.inTag = true := by
  rcases hx with rfl | rfl | rfl <;> rfl

theorem EndsName.endsAs {x : Cursor} (hx : x.EndsName) : x.EndsAs .between := by
  rcases hx with rfl | rfl | rfl <;> exact ⟨rfl, fun _ _ => rfl⟩

theorem EndsName.next_eq {x : Cursor} (hx : x.EndsName) (hc : isElementNameChar c = false) :
    x.next c = between.next c := by
  have hdash : c ≠ '-' := by
    rintro rfl
    exact absurd hc (by decide)
  have hname := nextInName_eq_nextBetween hc
  rcases hx with rfl | rfl | rfl
  · exact hname
  · exact (if_neg hdash).trans hname
  · exact (if_neg hdash).trans hname

theorem endsName_of_first {x : Cursor} {rest : List Char} (hnext : x.next c = nextInName c)
    (hs : ∀ b ∈ c :: rest, isElementNameChar b = true) :
    ((c :: rest).foldl next x).EndsName := by
  rw [List.foldl_cons, hnext, nextInName_eq_elementName (hs c List.mem_cons_self),
    foldl_next_elementName fun b hb => hs b (List.mem_cons_of_mem c hb)]
  exact .inl rfl

/-- From the beginning of a tag a name that begins no comment is read so. -/
theorem endsName_foldl_next (hs : ∀ c ∈ s, isElementNameChar c = true) (hne : s ≠ [])
    (hcomment : ¬ ['!', '-', '-'] <+: s) : (s.foldl next .opening).EndsName := by
  obtain ⟨c, rest, rfl⟩ := List.exists_cons_of_ne_nil hne
  by_cases hbang : c = '!'
  · subst hbang
    cases rest with
    | nil => exact .inr (.inl rfl)
    | cons c rest =>
        have hs := fun b hb => hs b (List.mem_cons_of_mem _ hb)
        by_cases hdash : c = '-'
        · subst hdash
          cases rest with
          | nil => exact .inr (.inr rfl)
          | cons c rest =>
              refine endsName_of_first (x := .bangDash) (if_neg ?_)
                fun b hb => hs b (List.mem_cons_of_mem _ hb)
              rintro rfl
              exact hcomment ⟨rest, rfl⟩
        · exact endsName_of_first (x := .bang) (if_neg hdash) hs
  · have hc := hs c List.mem_cons_self
    simp only [isElementNameChar, Bool.not_eq_true', Bool.or_eq_false_iff] at hc
    exact endsName_of_first (x := .opening) ((if_neg hbang).trans (if_neg (by simp [hc.1]))) hs

end Cursor

namespace ReadingHead

variable {h y : ReadingHead} {x z : Cursor} {i : Nat} {c : Char} {s name : List Char}
  {stride : Stride}

/-- In front of the name of an element a slash and blanks are passed over. -/
theorem makes_nameStart (m : Markers) (d : Dialect) (index : Nat) (isLast : Bool)
    (h : ReadingHead) (i : Nat) :
    (h.put .opening i).Makes m d index isLast (.goesOn (h.put .beforeName (nameStart h.text i))) ∨
      nameStart h.text i = i ∧ h.text[i]? ≠ some '/' := by
  have hstays : ∀ b, isBlank b = true → Cursor.beforeName.next b = .beforeName :=
    fun b hb => if_pos hb
  unfold nameStart
  by_cases hslash : h.text[i]? = some '/'
  · rw [if_pos hslash]
    exact .inl ((makes_char hslash nofun).trans (makes_passBlanks hstays))
  · rw [if_neg hslash]
    by_cases hblank : ∃ b, h.text[i]? = some b ∧ isBlank b = true
    · obtain ⟨b, hb, hbblank⟩ := hblank
      have hne : ∀ mark : Char, isBlank mark = false → b ≠ mark := by
        rintro mark hmark rfl
        exact absurd (hbblank.symm.trans hmark) nofun
      have hnext : Cursor.opening.next b = .beforeName :=
        (if_neg (hne '!' (by decide))).trans (if_pos (by simp [hbblank]))
      refine .inl ((makes_char hb fun heq => absurd heq (hne '>' (by decide))).trans ?_)
      rw [hnext, ← passOver_succ hb hbblank]
      exact makes_passBlanks hstays
    · refine .inr ⟨passOver_eq_self fun b hb => ?_, hslash⟩
      exact Bool.eq_false_iff.mpr fun hbblank => hblank ⟨b, hb, hbblank⟩

/-- Behind the name of an element, which may be missing, a cursor is as good as one between
attributes. -/
theorem makes_elementName (hstart : y.Makes m d index isLast (.goesOn (h.put x i)))
    (htag : x.inTag = true) (hend : x.EndsAs .between)
    (hmark : ∀ c, h.text[i]? = some c → isElementNameChar c = false →
      x.next c = Cursor.between.next c)
    (hname : ∀ s ≠ [], s <+: h.text.drop i → (∀ c ∈ s, isElementNameChar c = true) →
      (s.foldl Cursor.next x).EndsName) :
    ∃ z : Cursor, y.Makes m d index isLast
      (.goesOn (h.put z (passOver isElementNameChar h.text i))) ∧ z.inTag = true ∧
      z.AsBetween h.text[passOver isElementNameChar h.text i]? := by
  have hall : ∀ c ∈ (h.text.drop i).takeWhile isElementNameChar, isElementNameChar c = true :=
    fun c hc => List.mem_takeWhile_imp hc
  have hbehind : ∀ c, h.text[passOver isElementNameChar h.text i]? = some c →
      isElementNameChar c = false := fun c hc => not_of_getElem?_passOver hc
  refine ⟨_, hstart.trans (makes_word (List.takeWhile_prefix isElementNameChar)
    fun hclose => absurd (hall '>' hclose) (by decide)), ?_⟩
  by_cases hnone : (h.text.drop i).takeWhile isElementNameChar = []
  · have hhere : passOver isElementNameChar h.text i = i := by
      rw [passOver, hnone]
      rfl
    rw [hhere] at hbehind ⊢
    rw [hnone]
    refine ⟨htag, ?_⟩
    cases hc : h.text[i]? with
    | none => exact hend
    | some c => exact hmark c hc (hbehind c hc)
  · have hy := hname _ hnone (List.takeWhile_prefix isElementNameChar) hall
    refine ⟨hy.inTag, ?_⟩
    cases hc : h.text[passOver isElementNameChar h.text i]? with
    | none => exact hy.endsAs
    | some c => exact hy.next_eq (hbehind c hc)

/-- The name of an element is read as it is passed. -/
theorem makes_passName (hcomment : ¬ ['!', '-', '-'] <+: h.text.drop i) :
    (h.put .opening i).Makes m d index isLast (.goesOn (h.put .between (passName h.text i))) := by
  suffices hname : ∃ y : Cursor, (h.put .opening i).Makes m d index isLast
      (.goesOn (h.put y (passOver isElementNameChar h.text (nameStart h.text i)))) ∧
      y.inTag = true ∧
      y.AsBetween h.text[passOver isElementNameChar h.text (nameStart h.text i)]? by
    obtain ⟨y, hon, htag, hy⟩ := hname
    refine hon.trans ((makes_between htag hy).trans (makes_passBlanks fun b hb => ?_))
    exact (Cursor.between_stays (by simp [hb])).1
  have hblank : ∀ c, h.text[nameStart h.text i]? = some c → isBlank c = false :=
    fun c hc => not_of_getElem?_passOver hc
  rcases makes_nameStart m d index isLast h i with hstart | ⟨hstart, hslash⟩
  · refine makes_elementName hstart rfl ⟨rfl, fun _ _ => rfl⟩ (fun c hc hmark => ?_)
      fun s hne hs hall => ?_
    · exact (if_neg (by simp [hblank c hc])).trans (Cursor.nextInName_eq_nextBetween hmark)
    · obtain ⟨c, rest, rfl⟩ := List.exists_cons_of_ne_nil hne
      exact Cursor.endsName_of_first (if_neg (by simp [hblank c (of_prefix_cons hs).1])) hall
  · rw [hstart] at hblank ⊢
    refine makes_elementName (.refl _) rfl ⟨rfl, fun _ _ => rfl⟩ (fun c hc hmark => ?_)
      fun s hne hs hall => Cursor.endsName_foldl_next hall hne fun hword =>
        hcomment (hword.trans hs)
    have hne : c ≠ '/' := fun heq => hslash (heq ▸ hc)
    obtain rfl : c = '>' := by simpa [isElementNameChar, hblank c hc, hne] using hmark
    rfl

end ReadingHead

end LiveTemplate
