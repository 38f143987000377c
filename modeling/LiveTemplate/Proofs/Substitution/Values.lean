import LiveTemplate.Proofs.Session.Calls

/-!
# What plain data is written as

Nothing, truth values, numbers, strings, and lists and tuples of these refer to nothing live.  So
what they are written as does not depend on the session: `Value.str` is their text, and the
functions that fill parts read off of it what an attribute is set to (`Value.attributeText`) and
which texts a range gets (`Value.texts`).
-/

namespace LiveTemplate

set_option autoImplicit false

namespace Value

mutual
/-- The value is plain data. -/
def IsData : Value → Prop
  | .null | .bool _ | .int _ | .float _ | .text _ => True
  | .list items | .tuple items => AllData items
  | _ => False

/-- The values are plain data. -/
def AllData : List Value → Prop
  | [] => True
  | v :: rest => v.IsData ∧ AllData rest
end

mutual
/-- Plain data inside of other data: strings stand between quotes. -/
def quoted : Value → String
  | .null => "None"
  | .bool b => if b then "True" else "False"
  | .int n => toString n
  | .float x => Decimal.floatText x
  | .text t => Text.quoted t
  | .list items => Session.bracketed (quotedAll items)
  | .tuple items => Session.tupleText (quotedAll items)
  | _ => ""

def quotedAll : List Value → List String
  | [] => []
  | v :: rest => v.quoted :: quotedAll rest
end

/-- The text of plain data: a string as it is. -/
def str : Value → String
  | .text t => t
  | v => v.quoted

/-- What an attribute is set to, if it is not removed. -/
def attributeText : Value → Option String
  | .null | .bool false => none
  | .bool true => some ""
  | v => some v.str

/-- The text of one entry of a range, if it is not left out. -/
def entryText : Value → Option String
  | .null | .bool false => none
  | v => some v.str

/-- The texts that a value fills a range with: those of its entries if it is a list or a tuple,
and its own otherwise. -/
def texts (v : Value) : List String := (Session.rangeEntries v).filterMap entryText

end Value

namespace Session

variable {s : Session}

mutual
theorem shownWith_of_isData {refText : RefId → Except Fault String} :
    ∀ {v : Value}, v.IsData → s.shownWith refText v = .ok v.quoted
  | .null, _ => rfl
  | .bool _, _ => rfl
  | .int _, _ => rfl
  | .float _, _ => rfl
  | .text _, _ => rfl
  | .list items, h => by
      show (s.shownAll refText items).map bracketed = _
      have hitems : Value.AllData items := h
      rw [shownAll_of_allData hitems]
      rfl
  | .tuple items, h => by
      show (s.shownAll refText items).map tupleText = _
      have hitems : Value.AllData items := h
      rw [shownAll_of_allData hitems]
      rfl

theorem shownAll_of_allData {refText : RefId → Except Fault String} :
    ∀ {vs : List Value}, Value.AllData vs → s.shownAll refText vs = .ok (Value.quotedAll vs)
  | [], _ => rfl
  | v :: rest, h => by
      unfold shownAll
      rw [shownWith_of_isData h.1, shownAll_of_allData h.2]
      rfl
end

/-- Plain data has the same text in every session. -/
theorem plain_of_isData {v : Value} (h : v.IsData) : s.plain v = .ok v.str := by
  cases v with
  | text t => rfl
  | null => rfl
  | bool b => rfl
  | int n => rfl
  | float x => rfl
  | list items => exact shownWith_of_isData (v := .list items) h
  | tuple items => exact shownWith_of_isData (v := .tuple items) h
  | _ => exact h.elim

theorem attributeText?_of_isData {v : Value} (h : v.IsData) :
    s.attributeText? v = .ok v.attributeText := by
  have hplain : ∀ {v : Value}, v.IsData → (do return some (← s.plain v) : Except Fault _)
      = .ok (some v.str) := by
    intro v h
    rw [plain_of_isData h]
    rfl
  cases v with
  | bool b => cases b <;> rfl
  | null => rfl
  | text t => rfl
  | int n => exact hplain h
  | float x => exact hplain h
  | list items => exact hplain h
  | tuple items => exact hplain h
  | _ => exact h.elim

/-- The contents that plain data stands for are texts. -/
theorem contentsOf_of_allData {vs : List Value} (h : Value.AllData vs) :
    s.contentsOf vs = .ok ((vs.filterMap Value.entryText).map .text) := by
  induction vs with
  | nil => rfl
  | cons v rest ih =>
      have hwritten : ∀ {v : Value} {content : Except Fault Content}, content = .ok (.text v.str) →
          (do return (← content) :: (← s.contentsOf rest) : Except Fault (List Content))
            = .ok (.text v.str :: (rest.filterMap Value.entryText).map .text) := by
        rintro v content rfl
        rw [ih h.2]
        rfl
      have hplain : ∀ {v : Value}, v.IsData → (s.plain v).map Content.text = .ok (.text v.str) := by
        intro v h
        rw [plain_of_isData h]
        rfl
      cases v with
      | null => exact ih h.2
      | bool b =>
          cases b
          · exact ih h.2
          · exact hwritten (v := .bool true) (hplain trivial)
      | int n => exact hwritten (v := .int n) (hplain h.1)
      | float x => exact hwritten (v := .float x) (hplain h.1)
      | text t => exact hwritten (v := .text t) rfl
      | list items => exact hwritten (v := .list items) (hplain h.1)
      | tuple items => exact hwritten (v := .tuple items) (hplain h.1)
      | _ => exact h.1.elim

theorem contentsOf_rangeEntries {v : Value} (h : v.IsData) :
    s.contentsOf (rangeEntries v) = .ok (v.texts.map .text) := by
  have hentries : Value.AllData (rangeEntries v) := by
    cases v with
    | list items => exact h
    | tuple items => exact h
    | _ => exact ⟨h, trivial⟩
  exact contentsOf_of_allData hentries

/-- The arguments in a list are its entries. -/
theorem argumentAt_list (vs : List Value) (index : Nat) :
    s.argumentAt (.list vs) index = .ok vs[index]? := by
  cases vs with
  | nil => rfl
  | cons v rest =>
      unfold argumentAt
      exact if_neg (show ¬ s.isNothing (.list (v :: rest)) = true from Bool.false_ne_true)

end Session

end LiveTemplate
