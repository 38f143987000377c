import LiveTemplate.Dialect

/-!
# Trees of markup

A parsed template is a list of trees.  Its inner nodes are elements with attributes; its leaves
are texts, comments and the rarer kinds of markup.
-/

namespace LiveTemplate

set_option autoImplicit false

/-- The attributes of an element, in the order in which they were first set. -/
abbrev Attributes := List (String × String)

namespace Attributes

/-- The value of an attribute. -/
def get? (as : Attributes) (name : String) : Option String := as.lookup name

/-- Whether an attribute is present. -/
def has (as : Attributes) (name : String) : Bool := as.any (·.1 == name)

/-- Sets an attribute, in its old place if it has one and at the end otherwise. -/
def set (as : Attributes) (name value : String) : Attributes :=
  match as with
  | [] => [(name, value)]
  | (other, old) :: rest =>
    if other == name then (name, value) :: rest else (other, old) :: Attributes.set rest name value

/-- Removes an attribute. -/
def erase (as : Attributes) (name : String) : Attributes := as.filter (·.1 != name)

/-- The attributes that a tag writes: a repeated one keeps its first place and its last value. -/
def ofList (written : List (String × String)) : Attributes :=
  written.foldl (fun as a => as.set a.1 a.2) []

theorem get?_set_self (as : Attributes) (name value : String) :
    (as.set name value).get? name = some value := by
  induction as with
  | nil => simp [set, get?]
  | cons a rest ih =>
    obtain ⟨other, old⟩ := a
    by_cases h : other = name
    · simp [set, get?, h]
    · have hb : (name == other) = false := by simpa using fun e => h e.symm
      simpa [set, get?, h, hb, List.lookup_cons] using ih

theorem get?_set_of_ne (as : Attributes) {name asked : String} (value : String)
    (h : asked ≠ name) : (as.set name value).get? asked = as.get? asked := by
  have hname : (asked == name) = false := by simpa using h
  induction as with
  | nil => simp [set, get?, List.lookup_cons, hname]
  | cons a rest ih =>
    obtain ⟨other, old⟩ := a
    by_cases ho : other = name
    · subst ho
      simp [set, get?, List.lookup_cons, hname]
    · cases ha : asked == other
      · simpa [set, get?, ho, List.lookup_cons, ha] using ih
      · simp [set, get?, ho, List.lookup_cons, ha]

theorem get?_erase_self (as : Attributes) (name : String) : (as.erase name).get? name = none := by
  induction as with
  | nil => rfl
  | cons a rest ih =>
    obtain ⟨other, old⟩ := a
    by_cases h : other = name
    · simpa [erase, get?, h] using ih
    · have hb : (name == other) = false := by simpa using fun e => h e.symm
      simpa [erase, get?, h, List.lookup_cons, hb] using ih

theorem get?_erase_of_ne (as : Attributes) {name asked : String} (h : asked ≠ name) :
    (as.erase name).get? asked = as.get? asked := by
  have hname : (asked == name) = false := by simpa using h
  induction as with
  | nil => rfl
  | cons a rest ih =>
    obtain ⟨other, old⟩ := a
    by_cases ho : other = name
    · subst ho
      simpa [erase, get?, List.lookup_cons, hname] using ih
    · cases ha : asked == other
      · simpa [erase, get?, ho, List.lookup_cons, ha] using ih
      · simp [erase, get?, ho, List.lookup_cons, ha]

theorem has_eq_isSome_get? (as : Attributes) (name : String) :
    as.has name = (as.get? name).isSome := by
  induction as with
  | nil => rfl
  | cons a rest ih =>
    obtain ⟨other, old⟩ := a
    by_cases h : other = name
    · simp [has, get?, h]
    · have hb : (name == other) = false := by simpa using fun e => h e.symm
      have hb' : (other == name) = false := by simpa using h
      simpa [has, get?, List.lookup_cons, hb, hb'] using ih

end Attributes

/-- The data of an element, without its children. -/
structure Element where
  name : String
  /-- The namespace prefix in front of the name. -/
  space : Option String := none
  attributes : Attributes := []
  /-- Whether the element is written as a single tag when it has no children. -/
  single : Bool := false
  /-- The dialect it was parsed in; none for an element made by hand. -/
  dialect : Option Dialect := none
  deriving DecidableEq, Repr

/-- The name of an element as it stands in a tag. -/
def Element.tagName (e : Element) : String :=
  match e.space with
  | none => e.name
  | some space => space ++ ":" ++ e.name

/-- A node without children. -/
inductive Leaf
  | text (content : String)
  /-- An end of a live node range.  It is written as nothing. -/
  | sentinel
  | comment (content : String)
  | cdata (content : String)
  /-- A processing instruction, closed the way of its dialect. -/
  | instruction (content : String) (dialect : Dialect)
  | declaration (content : String)
  | doctype (content : String)
  deriving DecidableEq, Repr

/-- The characters a leaf holds. -/
def Leaf.content : Leaf → String
  | .text s | .comment s | .cdata s | .instruction s _ | .declaration s | .doctype s => s
  | .sentinel => ""

/-- A node with everything below it. -/
inductive Tree
  | leaf (l : Leaf)
  | element (e : Element) (children : List Tree)
  deriving Repr

mutual
/-- All elements of a tree, in document order. -/
def Tree.elements : Tree → List Element
  | .leaf _ => []
  | .element e children => e :: Tree.elementsOfAll children

/-- All elements of a list of trees, in document order. -/
def Tree.elementsOfAll : List Tree → List Element
  | [] => []
  | t :: rest => t.elements ++ Tree.elementsOfAll rest
end

theorem Tree.elementsOfAll_append (xs ys : List Tree) :
    Tree.elementsOfAll (xs ++ ys) = Tree.elementsOfAll xs ++ Tree.elementsOfAll ys := by
  induction xs with
  | nil => rfl
  | cons t rest ih =>
      rw [List.cons_append, elementsOfAll, elementsOfAll, ih, List.append_assoc]

end LiveTemplate
