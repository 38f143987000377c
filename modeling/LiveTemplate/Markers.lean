import LiveTemplate.Dialect

/-!
# Markers

A placeholder survives parsing because the scanner leaves a marker at its place: an attribute on
the tag it stands in, or an empty element in the text it stands in.
-/

namespace LiveTemplate

set_option autoImplicit false

/-- The attribute names that mark placeholders. -/
structure Markers where
  /-- Carries the attribute names of the holes inside one tag. -/
  attributes : String := "data-dtpp-attributes"
  /-- Marks the empty element that stands for a hole in text. -/
  nodes : String := "data-dtpp-nodes"
  deriving DecidableEq, Repr, Inhabited

namespace Markers

/-- Separates the names in a marker attribute.  No attribute name contains it. -/
def delimiter : Char := ' '

/-- The element that stands for a hole in text. -/
def element (m : Markers) (d : Dialect) : List Char :=
  let tag := match d with
    | .html => "span"
    | .svg => "g"
  ("<" ++ tag ++ " " ++ m.nodes ++ "=\"\"></" ++ tag ++ ">").toList

/-- Names with the delimiter between them. -/
def join (names : List (List Char)) : List Char := List.intercalate [delimiter] names

/-- The marker attribute of a tag whose holes have the given names. -/
def note (m : Markers) (names : List (List Char)) : List Char :=
  ' ' :: m.attributes.toList ++ ['=', '"'] ++ join names ++ ['"']

/-- The names that a marker attribute lists: its value cut at every delimiter. -/
def split : List Char → List (List Char)
  | [] => [[]]
  | c :: rest =>
    if c = delimiter then [] :: split rest
    else
      match split rest with
      | [] => [[c]]
      | name :: names => (c :: name) :: names

theorem split_ne_nil (s : List Char) : split s ≠ [] := by
  cases s with
  | nil => simp [split]
  | cons c rest =>
    unfold split
    split
    · simp
    · split <;> simp

/-- Characters in front of a list of names go to its first name. -/
theorem split_append {name : List Char} (h : delimiter ∉ name) (s : List Char) :
    ∃ first others, split s = first :: others ∧ split (name ++ s) = (name ++ first) :: others := by
  obtain ⟨first, others, hs⟩ := List.exists_cons_of_ne_nil (split_ne_nil s)
  refine ⟨first, others, hs, ?_⟩
  induction name with
  | nil => simpa using hs
  | cons c name ih =>
    have hc : ¬ c = delimiter := fun e => h (by simp [e])
    have hname : delimiter ∉ name := fun e => h (by simp [e])
    rw [List.cons_append, split, if_neg hc, ih hname]
    rfl

/-- What is joined is split again, as long as no name holds the delimiter. -/
theorem split_join {names : List (List Char)} (hne : names ≠ [])
    (h : ∀ name ∈ names, delimiter ∉ name) : split (join names) = names := by
  induction names with
  | nil => exact absurd rfl hne
  | cons name rest ih =>
    have hname : delimiter ∉ name := h name (by simp)
    cases rest with
    | nil =>
      obtain ⟨first, others, hs, happend⟩ := split_append hname []
      obtain ⟨rfl, rfl⟩ : [] = first ∧ [] = others := by simpa [split] using hs
      simpa [join, List.intercalate, List.intersperse] using happend
    | cons next rest =>
      have htail := ih (by simp) fun x hx => h x (by simp [hx])
      obtain ⟨first, others, hs, happend⟩ :=
        split_append hname (delimiter :: join (next :: rest))
      obtain ⟨rfl, rfl⟩ : [] = first ∧ split (join (next :: rest)) = others := by
        simpa [split] using hs
      have hjoin : join (name :: next :: rest) = name ++ delimiter :: join (next :: rest) := by
        simp [join, List.intercalate, List.intersperse]
      rw [hjoin, happend, htail, List.append_nil]

end Markers

end LiveTemplate
