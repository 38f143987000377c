import LiveTemplate.Proofs.Scan.Moments
import Mathlib.Data.Nat.Find
import Mathlib.Order.Basic

/-!
# Where a scan fails

A scan fails at the first fragment that ends in a comment, and if there is none, at the last one if
that ends in a tag: `FailsAt`.  Its error tells the defect, the number of the fragment, and as the
position in it how much has been written of it.

That is the end of the marked fragment, which is the end of the fragment as it was given only where
no note has been put into it (`scan_fails_at_first_defect`).
-/

namespace LiveTemplate

set_option autoImplicit false

variable {m : Markers} {d : Dialect}

/-- The first defect of fragments: no fragment in front of this one ends in a comment, and this one
does, or it is the last one and ends in a tag. -/
structure FailsAt (m : Markers) (d : Dialect) (state : ScanState) (fragments : List (List Char))
    (index : Nat) (defect : Defect) : Prop where
  lt : index < fragments.length
  outside : ∀ earlier < index,
    (endFrom m d state fragments earlier).cursor.region ≠ .comment
  ends : ((endFrom m d state fragments index).cursor.region = .comment ∧
      defect = .endsInsideComment) ∨
    (index + 1 = fragments.length ∧
      ((endFrom m d state fragments index).cursor.region = .tag ∨
        (endFrom m d state fragments index).cursor.region = .attributeValue) ∧
      defect = .endsInsideTag)

namespace FailsAt

variable {state : ScanState} {s next : List Char} {rest fragments : List (List Char)}
  {index : Nat} {defect : Defect}

/-- Behind a fragment that ends in a comment there is no first defect. -/
theorem eq_zero (h : FailsAt m d state (s :: rest) index defect)
    (hcomment : (endFrom m d state (s :: rest) 0).cursor.region = .comment) : index = 0 := by
  by_contra hne
  exact h.outside 0 (Nat.pos_of_ne_zero hne) hcomment

theorem defect_eq (h : FailsAt m d state fragments index defect)
    (hcomment : (endFrom m d state fragments index).cursor.region = .comment) :
    defect = .endsInsideComment := by
  rcases h.ends with ⟨-, hdefect⟩ | ⟨-, htag, -⟩
  · exact hdefect
  · rw [hcomment] at htag
    exact htag.elim (nomatch ·) (nomatch ·)

theorem of_comment (hcomment : (endFrom m d state (s :: rest) 0).cursor.region = .comment) :
    FailsAt m d state (s :: rest) 0 .endsInsideComment where
  lt := Nat.succ_pos _
  outside earlier hlt := absurd hlt (Nat.not_lt_zero earlier)
  ends := .inl ⟨hcomment, rfl⟩

/-- The first defect of a single fragment. -/
theorem singleton_iff (hcomment : (endFrom m d state [s] 0).cursor.region ≠ .comment) :
    FailsAt m d state [s] index defect ↔ index = 0 ∧
      ((endFrom m d state [s] 0).cursor.region = .tag ∨
        (endFrom m d state [s] 0).cursor.region = .attributeValue) ∧ defect = .endsInsideTag := by
  constructor
  · intro h
    obtain rfl : index = 0 := Nat.lt_one_iff.mp h.lt
    rcases h.ends with ⟨hc, -⟩ | ⟨-, htag, hdefect⟩
    · exact absurd hc hcomment
    · exact ⟨rfl, htag, hdefect⟩
  · rintro ⟨rfl, htag, hdefect⟩
    exact ⟨Nat.zero_lt_one, fun earlier hlt => absurd hlt (Nat.not_lt_zero earlier),
      .inr ⟨rfl, htag, hdefect⟩⟩

/-- Behind a fragment that ends outside comments the first defect is that of the others. -/
theorem succ_iff (hcomment : (endFrom m d state (s :: next :: rest) 0).cursor.region ≠ .comment) :
    FailsAt m d state (s :: next :: rest) index defect ↔
      ∃ later, index = later + 1 ∧
        FailsAt m d (state.past m d s) (next :: rest) later defect := by
  constructor
  · intro h
    cases index with
    | zero =>
        rcases h.ends with ⟨hc, -⟩ | ⟨hlast, -⟩
        · exact absurd hc hcomment
        · exact absurd (Nat.succ.inj hlast).symm (Nat.succ_ne_zero _)
    | succ later =>
        refine ⟨later, rfl, Nat.lt_of_succ_lt_succ h.lt, ?_, ?_⟩
        · intro earlier hlt
          exact h.outside (earlier + 1) (Nat.succ_lt_succ hlt)
        · exact h.ends.imp_right fun ⟨hlast, hends⟩ => ⟨Nat.succ.inj hlast, hends⟩
  · rintro ⟨later, rfl, h⟩
    refine ⟨Nat.succ_lt_succ h.lt, ?_, ?_⟩
    · intro earlier hlt
      cases earlier with
      | zero => exact hcomment
      | succ earlier => exact h.outside earlier (Nat.lt_of_succ_lt_succ hlt)
    · exact h.ends.imp_right fun ⟨hlast, hends⟩ => ⟨congrArg Nat.succ hlast, hends⟩

end FailsAt

/-- The error at the first defect, in the fragment that is counted from `start` on. -/
def defectError (m : Markers) (d : Dialect) (state : ScanState) (start : Nat)
    (fragments : List (List Char)) (index : Nat) (defect : Defect) : TemplateError :=
  ⟨defect, ⟨some ((start + index : Nat) : Int),
    some (endFrom m d state fragments index).written.length⟩⟩

/-- A scan gives exactly the error at the first defect. -/
theorem scanFrom_error_iff {state : ScanState} {start : Nat} {fragments : List (List Char)}
    {e : TemplateError} :
    (scanFrom m d state start fragments).1 = .error e ↔
      ∃ index, FailsAt m d state fragments index e.defect ∧
        e = defectError m d state start fragments index e.defect := by
  induction fragments generalizing state start with
  | nil => exact ⟨nofun, fun ⟨index, h, _⟩ => absurd h.lt (Nat.not_lt_zero index)⟩
  | cons s rest ih =>
      by_cases hcomment : (endFrom m d state (s :: rest) 0).cursor.region = .comment
      · rw [scanFrom_of_comment start hcomment]
        constructor
        · intro h
          obtain rfl := Except.error.inj h
          exact ⟨0, .of_comment hcomment, rfl⟩
        · rintro ⟨index, h, he⟩
          obtain rfl := h.eq_zero hcomment
          rw [h.defect_eq hcomment] at he
          exact congrArg Except.error he.symm
      cases rest with
      | nil =>
          rcases Cursor.region_cases (endFrom m d state [s] 0).cursor with htext | hc | htag
          · rw [scanFrom_singleton_of_text start htext]
            refine ⟨nofun, fun ⟨index, h, _⟩ => ?_⟩
            have htag := ((FailsAt.singleton_iff hcomment).mp h).2.1
            rw [htext] at htag
            exact htag.elim (nomatch ·) (nomatch ·)
          · exact absurd hc hcomment
          · rw [scanFrom_singleton_of_tag start htag]
            constructor
            · intro h
              obtain rfl := Except.error.inj h
              exact ⟨0, (FailsAt.singleton_iff hcomment).mpr ⟨rfl, htag, rfl⟩, rfl⟩
            · rintro ⟨index, h, he⟩
              obtain ⟨rfl, -, hdefect⟩ := (FailsAt.singleton_iff hcomment).mp h
              rw [hdefect] at he
              exact congrArg Except.error he.symm
      | cons next rest =>
          have hlater : (scanFrom m d state start (s :: next :: rest)).1 = .error e ↔
              (scanFrom m d (state.past m d s) (start + 1) (next :: rest)).1 = .error e := by
            rw [scanFrom_of_outside start hcomment]
            cases (scanFrom m d (state.past m d s) (start + 1) (next :: rest)).1 with
            | error other => exact Iff.rfl
            | ok others => exact ⟨nofun, nofun⟩
          have hplace : ∀ later, defectError m d (state.past m d s) (start + 1) (next :: rest) later
              e.defect = defectError m d state start (s :: next :: rest) (later + 1) e.defect := by
            intro later
            rw [defectError, defectError, endFrom_succ, Nat.add_right_comm start 1 later]
            rfl
          rw [hlater, ih]
          constructor
          · rintro ⟨later, h, he⟩
            exact ⟨later + 1, (FailsAt.succ_iff hcomment).mpr ⟨later, rfl, h⟩,
              he.trans (hplace later)⟩
          · rintro ⟨index, h, he⟩
            obtain ⟨later, rfl, hfails⟩ := (FailsAt.succ_iff hcomment).mp h
            exact ⟨later, hfails, he.trans (hplace later).symm⟩

/-- There is a first defect if any fragment ends in a comment or the last one in a tag. -/
theorem exists_failsAt_iff {state : ScanState} {fragments : List (List Char)} :
    (∃ index defect, FailsAt m d state fragments index defect) ↔
      (∃ index < fragments.length,
        (endFrom m d state fragments index).cursor.region = .comment) ∨
      ∃ index, index + 1 = fragments.length ∧
        ((endFrom m d state fragments index).cursor.region = .tag ∨
          (endFrom m d state fragments index).cursor.region = .attributeValue) := by
  constructor
  · rintro ⟨index, defect, h⟩
    rcases h.ends with ⟨hcomment, -⟩ | ⟨hlast, htag, -⟩
    · exact .inl ⟨index, h.lt, hcomment⟩
    · exact .inr ⟨index, hlast, htag⟩
  · intro h
    by_cases hcomment : ∃ index, index < fragments.length ∧
        (endFrom m d state fragments index).cursor.region = .comment
    · obtain ⟨hlt, hregion⟩ := Nat.find_spec hcomment
      refine ⟨Nat.find hcomment, .endsInsideComment, hlt, fun earlier hearlier hc => ?_,
        .inl ⟨hregion, rfl⟩⟩
      exact Nat.find_min hcomment hearlier ⟨Nat.lt_trans hearlier hlt, hc⟩
    · obtain ⟨index, hlast, htag⟩ := h.resolve_left hcomment
      have hlt : index < fragments.length := hlast ▸ Nat.lt_succ_self index
      exact ⟨index, .endsInsideTag, hlt,
        fun earlier hearlier hc => hcomment ⟨earlier, Nat.lt_trans hearlier hlt, hc⟩,
        .inr ⟨hlast, htag, rfl⟩⟩

/-- The scan of a template fails as the scan of its characters does. -/
theorem scan_error_iff {fragments : List String} {e : TemplateError} :
    (scan m d fragments).1 = .error e ↔
      (scanFrom m d {} 0 (fragments.map String.toList)).1 = .error e := by
  rw [scan_fst]
  cases (scanFrom m d {} 0 (fragments.map String.toList)).1 with
  | error other => simp [Except.map]
  | ok written => simp [Except.map]

/-- A scan fails exactly if some fragment ends in a comment or the last one in a tag.  The error is
about the first fragment that ends in a comment, and else about the last one, and tells its number.
The position that it tells is the length of the fragment and of the notes put into it: it is the
length of the fragment as it was given exactly if no tag with placeholders ends in it. -/
theorem scan_fails_at_first_defect (m : Markers) (d : Dialect) (fragments : List String) :
    ((∃ e, (scan m d fragments).1 = .error e) ↔
      (∃ index < (fragments.map String.toList).length,
        (endFrom m d {} (fragments.map String.toList) index).cursor.region = .comment) ∨
      ∃ index, index + 1 = (fragments.map String.toList).length ∧
        ((endFrom m d {} (fragments.map String.toList) index).cursor.region = .tag ∨
          (endFrom m d {} (fragments.map String.toList) index).cursor.region
            = .attributeValue)) ∧
    ∀ e, (scan m d fragments).1 = .error e → ∃ (index : Nat) (s : String),
      fragments[index]? = some s ∧
      FailsAt m d {} (fragments.map String.toList) index e.defect ∧
      e.place.fragment = some (index : Int) ∧
      e.place.position = some ((s.length
        + (notesFrom m d {} (fragments.map String.toList) index).flatten.length : Nat) : Int) ∧
      (e.place.position = some (s.length : Int) ↔
        notesFrom m d {} (fragments.map String.toList) index = []) := by
  constructor
  · rw [← exists_failsAt_iff]
    constructor
    · rintro ⟨e, he⟩
      obtain ⟨index, h, -⟩ := scanFrom_error_iff.mp (scan_error_iff.mp he)
      exact ⟨index, e.defect, h⟩
    · rintro ⟨index, defect, h⟩
      exact ⟨defectError m d {} 0 (fragments.map String.toList) index defect,
        scan_error_iff.mpr (scanFrom_error_iff.mpr ⟨index, h, rfl⟩)⟩
  · intro e he
    obtain ⟨index, h, heq⟩ := scanFrom_error_iff.mp (scan_error_iff.mp he)
    have hlt : index < fragments.length := by simpa using h.lt
    have hs : fragments[index]? = some fragments[index] := List.getElem?_eq_getElem hlt
    have hchars : (fragments.map String.toList)[index]? = some fragments[index].toList := by
      rw [List.getElem?_map, hs]
      rfl
    have hlength : (endFrom m d {} (fragments.map String.toList) index).written.length = _ :=
      length_endFrom hchars
    have hposition : e.place.position = some (((fragments[index].length
        + (notesFrom m d {} (fragments.map String.toList) index).flatten.length : Nat)) : Int) := by
      rw [heq, defectError, hlength, String.length_toList]
    refine ⟨index, fragments[index], hs, h, ?_, hposition, ?_⟩
    · rw [heq, defectError, Nat.zero_add]
    · rw [hposition, ← length_notesFrom_eq_zero_iff, Option.some.injEq, Int.natCast_inj]
      omega

/-- A note has been put into the fragment that ends in a comment. -/
theorem scan_fails_at_first_defect_notedFragment :
    ∃ e, (scan {} .html ["<p ", "></p><!-- ", "-->"]).1 = .error e ∧
      e.place.position ≠ some (("></p><!-- ".length : Nat) : Int) := by
  have hnotes : notesFrom {} .html {} (["<p ", "></p><!-- ", "-->"].map String.toList) 1 ≠ [] := by
    decide +kernel
  have hfails : (scan {} .html ["<p ", "></p><!-- ", "-->"]).1
      = .error ⟨.endsInsideComment, ⟨some 1, some 34⟩⟩ := by decide +kernel
  obtain ⟨index, s, hs, -, hfragment, -, hposition⟩ :=
    (scan_fails_at_first_defect {} .html ["<p ", "></p><!-- ", "-->"]).2 _ hfails
  obtain rfl : index = 1 := (Int.natCast_inj.mp (Option.some.inj hfragment)).symm
  obtain rfl : "></p><!-- " = s := Option.some.inj hs
  exact ⟨_, hfails, fun h => hnotes (hposition.mp h)⟩

/-- The length of the last fragment is 8, and the note that has been put into it takes up 24
characters. -/
theorem position_counts_note :
    (scan {} .html ["<p ", "></p><br"]).1 = .error ⟨.endsInsideTag, ⟨some 1, some 32⟩⟩ ∧
      "></p><br".length = 8 := by
  decide +kernel

end LiveTemplate
