import LiveTemplate.Text.Blank
import LiveTemplate.Text.LowerCase

/-!
# What lower case leaves

A text in lower case has no lower-case form but itself: `lower_lower`.  Lower case also brings no
character into a text that is not a letter, so blanks, quotes and the other marks of markup stand
in the lower-case form of a text only if they stand in the text: `mem_lower`.

Both are read off the table of letter case.  No lower-case form in it is a capital letter of it
(`avoids_caseRuns`), and every one is a letter (`lands_caseRuns`).
-/

namespace LiveTemplate.Text

set_option autoImplicit false

/-- A character that lower case leaves as it is wherever it stands. -/
def Settled (c : Char) : Prop := lowerChar c = [c] ∧ c.toNat ≠ 0x3A3

instance (c : Char) : Decidable (Settled c) := inferInstanceAs (Decidable (_ ∧ _))

/-- A character that may come of lower case: no blank, and no mark of ASCII. -/
def isLowered (c : Char) : Bool := !isBlank c && (c.isAlpha || 0x80 ≤ c.toNat)

/-! ## The table -/

namespace CaseRun

/-- The least lower-case form of a run. -/
def low (run : CaseRun) : Nat := ((run.first : Int) + run.shift).toNat

/-- The greatest lower-case form of a run. -/
def high (run : CaseRun) : Nat := ((run.last : Int) + run.shift).toNat

/-- No lower-case form of the run is a capital letter of another one: they lie apart, or both go by
twos and never meet. -/
def avoids (run other : CaseRun) : Bool :=
  other.last < run.low || run.high < other.first ||
    (other.step == 2 && (run.step == 2 || run.first == run.last) &&
      (run.low + other.first) % 2 == 1)

/-- The lower-case forms of the run are characters between the blanks, and beyond ASCII or letters
of it. -/
def lands (run : CaseRun) : Bool :=
  0 ≤ (run.first : Int) + run.shift && (run.high < 0x130 || 0x130 < run.low) &&
    ((0x61 ≤ run.low && run.high ≤ 0x7A) || (0xA0 < run.low && run.high < 0x1680)
      || (0x1680 < run.low && run.high < 0x2000) || (0x205F < run.low && run.high < 0x3000)
      || (0x3000 < run.low && run.high < 0xD800) || (0xDFFF < run.low && run.high < 0x110000))

end CaseRun

theorem avoids_caseRuns : ∀ run ∈ caseRuns, ∀ other ∈ caseRuns, run.avoids other = true := by
  have h : (caseRuns.all fun run => caseRuns.all run.avoids) = true := by decide +kernel
  intro run hrun other hother
  exact List.all_eq_true.mp (List.all_eq_true.mp h run hrun) other hother

theorem lands_caseRuns : ∀ run ∈ caseRuns, run.lands = true := by decide +kernel

/-- A lower-case form stands at its place in its run. -/
theorem CaseRun.lower?_eq_some {run : CaseRun} {n : Nat} {d : Char} (hlands : run.lands = true)
    (h : run.lower? n = some d) :
    (d.toNat : Int) = n + run.shift ∧ run.low ≤ d.toNat ∧ d.toNat ≤ run.high
      ∧ run.first ≤ n ∧ n ≤ run.last ∧ (n - run.first) % run.step = 0 := by
  unfold lower? at h
  split at h
  · rename_i hin
    simp only [Bool.and_eq_true, decide_eq_true_eq, beq_iff_eq] at hin
    obtain ⟨⟨hfirst, hlast⟩, hstep⟩ := hin
    obtain rfl := Option.some.inj h
    unfold lands low high at hlands
    unfold low high
    simp only [Bool.and_eq_true, Bool.or_eq_true, decide_eq_true_eq] at hlands
    have hvalid : ((n : Int) + run.shift).toNat.isValidChar := by
      unfold Nat.isValidChar
      omega
    have htoNat : (Char.ofNat ((n : Int) + run.shift).toNat).toNat
        = ((n : Int) + run.shift).toNat := by
      unfold Char.ofNat
      rw [dif_pos hvalid]
      rfl
    rw [htoNat]
    omega
  · exact nomatch h

/-- The lower-case forms of the table have none but themselves. -/
theorem not_capital_of_lower? {run : CaseRun} {n : Nat} {d : Char} (hrun : run ∈ caseRuns)
    (h : run.lower? n = some d) : caseRuns.findSome? (·.lower? d.toNat) = none := by
  rw [List.findSome?_eq_none_iff]
  intro other hother
  obtain ⟨hd, hlow, hhigh, hfirst, hlast, hstep⟩ :=
    CaseRun.lower?_eq_some (lands_caseRuns run hrun) h
  have havoids := avoids_caseRuns run hrun other hother
  have hlands := lands_caseRuns run hrun
  unfold CaseRun.avoids at havoids
  unfold CaseRun.lands at hlands
  unfold CaseRun.low CaseRun.high at havoids hlands
  unfold CaseRun.low at hlow
  unfold CaseRun.high at hhigh
  simp only [Bool.and_eq_true, Bool.or_eq_true, decide_eq_true_eq, beq_iff_eq] at havoids hlands
  unfold CaseRun.lower?
  rw [if_neg]
  simp only [Bool.and_eq_true, decide_eq_true_eq, beq_iff_eq]
  rintro ⟨⟨hle, hge⟩, hmod⟩
  rcases havoids with (happart | happart) | ⟨⟨htwo, hrunTwo | hone⟩, hodd⟩
  · omega
  · omega
  · rw [htwo] at hmod
    rw [hrunTwo] at hstep
    omega
  · rw [htwo] at hmod
    omega

/-! ## Single characters -/

theorem ascii_lowered : ∀ n < 0x80, Settled (Char.ofNat n).toLower ∧
    ((Char.ofNat n).toLower = Char.ofNat n ∨ isLowered (Char.ofNat n).toLower = true) := by
  decide +kernel

theorem ascii_small : ∀ n < 0x80, 0x61 ≤ n → n ≤ 0x7A →
    Settled (Char.ofNat n) ∧ isLowered (Char.ofNat n) = true := by
  decide +kernel

/-- The lower-case forms of the table are letters, and lower case leaves them. -/
theorem settled_of_lower? {run : CaseRun} {n : Nat} {d : Char} (hrun : run ∈ caseRuns)
    (h : run.lower? n = some d) : Settled d ∧ isLowered d = true := by
  obtain ⟨-, hlow, hhigh, -⟩ := CaseRun.lower?_eq_some (lands_caseRuns run hrun) h
  have hlands := lands_caseRuns run hrun
  unfold CaseRun.lands at hlands
  simp only [Bool.and_eq_true, Bool.or_eq_true, decide_eq_true_eq] at hlands
  by_cases hsmall : d.toNat < 0x80
  · have hd := ascii_small d.toNat hsmall (by omega) (by omega)
    rwa [Char.ofNat_toNat] at hd
  · have hnone := not_capital_of_lower? hrun h
    have hnot : d.toNat ≠ 0x3A3 := by
      intro he
      rw [he] at hnone
      revert hnone
      decide +kernel
    refine ⟨⟨?_, hnot⟩, ?_⟩
    · unfold lowerChar
      rw [if_neg hsmall, if_neg (by simp only [beq_iff_eq]; omega), hnone]
      rfl
    · unfold isLowered isBlank
      rw [decide_eq_true (Nat.le_of_not_lt hsmall), Bool.or_true, Bool.and_true]
      simp only [Bool.not_eq_true', Bool.or_eq_false_iff, Bool.and_eq_false_iff,
        decide_eq_false_iff_not, beq_eq_false_iff_ne]
      omega

/-- Lower case leaves what it has made of a character, and makes letters only. -/
theorem settled_of_mem_lowerChar {c d : Char} (h : d ∈ lowerChar c) (hsigma : c.toNat ≠ 0x3A3) :
    Settled d ∧ (d = c ∨ isLowered d = true) := by
  unfold lowerChar at h
  by_cases hascii : c.toNat < 0x80
  · rw [if_pos hascii, List.mem_singleton] at h
    have hc := ascii_lowered c.toNat hascii
    rw [Char.ofNat_toNat] at hc
    rw [h]
    exact hc
  · rw [if_neg hascii] at h
    by_cases hdotted : (c.toNat == 0x130) = true
    · rw [if_pos hdotted] at h
      have hboth : ∀ d ∈ ['i', '\u0307'], Settled d ∧ isLowered d = true :=
        List.forall_mem_cons.mpr
          ⟨by decide +kernel, List.forall_mem_singleton.mpr (by decide +kernel)⟩
      exact ⟨(hboth d h).1, .inr (hboth d h).2⟩
    · rw [if_neg hdotted, List.mem_singleton] at h
      cases hfound : caseRuns.findSome? (·.lower? c.toNat) with
      | none =>
          rw [hfound] at h
          obtain rfl : d = c := h
          refine ⟨⟨?_, hsigma⟩, .inl rfl⟩
          unfold lowerChar
          rw [if_neg hascii, if_neg hdotted, hfound]
          rfl
      | some found =>
          rw [hfound] at h
          obtain rfl : d = found := h
          obtain ⟨run, hrun, hlower⟩ := List.exists_of_findSome?_eq_some hfound
          exact ⟨(settled_of_lower? hrun hlower).1, .inr (settled_of_lower? hrun hlower).2⟩

/-! ## Texts -/

theorem settled_of_mem_lowerAfter {before s : List Char} {d : Char} (h : d ∈ lowerAfter before s) :
    Settled d ∧ (d ∈ s ∨ isLowered d = true) := by
  induction s generalizing before with
  | nil => exact nomatch h
  | cons c rest ih =>
      unfold lowerAfter at h
      rcases List.mem_append.mp h with hfirst | hrest
      · by_cases hsigma : (c.toNat == 0x3A3) = true
        · rw [if_pos hsigma, List.mem_singleton] at hfirst
          have hboth : ∀ d ∈ ['\u03C2', '\u03C3'], Settled d ∧ isLowered d = true :=
            List.forall_mem_cons.mpr
              ⟨by decide +kernel, List.forall_mem_singleton.mpr (by decide +kernel)⟩
          have hd : d ∈ ['\u03C2', '\u03C3'] := by
            rw [hfirst]
            split <;> simp
          exact ⟨(hboth d hd).1, .inr (hboth d hd).2⟩
        · rw [if_neg hsigma] at hfirst
          obtain ⟨hsettled, heq | hletter⟩ :=
            settled_of_mem_lowerChar hfirst (by simpa using hsigma)
          · exact ⟨hsettled, .inl (by simp [heq])⟩
          · exact ⟨hsettled, .inr hletter⟩
      · obtain ⟨hsettled, hmem | hletter⟩ := ih hrest
        · exact ⟨hsettled, .inl (List.mem_cons_of_mem c hmem)⟩
        · exact ⟨hsettled, .inr hletter⟩

/-- Lower case brings only letters into a text. -/
theorem mem_lower {s : List Char} {d : Char} (h : d ∈ lower s) : d ∈ s ∨ isLowered d = true :=
  (settled_of_mem_lowerAfter h).2

theorem lowerAfter_of_settled {before s : List Char} (h : ∀ c ∈ s, Settled c) :
    lowerAfter before s = s := by
  induction s generalizing before with
  | nil => rfl
  | cons c rest ih =>
      obtain ⟨hsame, hsigma⟩ := h c (by simp)
      unfold lowerAfter
      rw [if_neg (by simpa using hsigma), hsame, ih fun x hx => h x (by simp [hx])]
      rfl

/-- A text in lower case is its own lower-case form. -/
theorem lower_lower (s : List Char) : lower (lower s) = lower s :=
  lowerAfter_of_settled fun _ hc => (settled_of_mem_lowerAfter hc).1

end LiveTemplate.Text
