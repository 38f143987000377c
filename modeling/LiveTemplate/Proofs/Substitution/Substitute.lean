import LiveTemplate.Proofs.Substitution.Values
import Mathlib.Data.List.Dedup

/-!
# Substituting values into trees

What an instance shows can be said without any instance: the placeholders of the trees of its
template are numbered in document order, and the value of each of them is substituted at its place.

* An element that carries names loses its attribute marker.  An attribute that is named is what the
  last placeholder of that name says it is.
* An element that marks a range gives way to the texts of its value, between the two ends of the
  range, which are written as nothing.

Trees are compared up to the order of attributes, by `Tree.Same`.
-/

namespace LiveTemplate

set_option autoImplicit false

/-- Two trees are the same up to the order of the attributes of each element. -/
inductive Tree.Same : Tree → Tree → Prop
  | leaf (l : Leaf) : Tree.Same (.leaf l) (.leaf l)
  | element {e : Element} {as : Attributes} {ts ts' : List Tree}
      (attributes : ∀ name, as.get? name = e.attributes.get? name)
      (children : List.Forall₂ Tree.Same ts ts') :
      Tree.Same (.element { e with attributes := as } ts) (.element e ts')

/-- The values of placeholders: those beyond the last one are nothing. -/
def valueAt (values : List Value) (index : Nat) : Value := values[index]?.getD .null

/-- The names in the attribute marker of an element. -/
def Markers.namesOn (m : Markers) (e : Element) : List (List Char) :=
  match e.attributes.get? m.attributes with
  | some names => split names.toList
  | none => []

/-- The value of the last placeholder that names an attribute, where the placeholders of the names
are numbered from an index on.  The empty name stands for the element. -/
def lastNamed (value : Nat → Value) (name : String) (index : Nat) :
    List (List Char) → Option Value
  | [] => none
  | first :: rest =>
    (lastNamed value name (index + 1) rest).or
      (if first ≠ [] ∧ String.ofList first = name then some (value index) else none)

/-- The attributes of an element whose placeholders are numbered from an index on. -/
def Markers.filled (m : Markers) (value : Nat → Value) (index : Nat) (e : Element) : Attributes :=
  ((e.attributes.erase m.attributes).filter fun a =>
      (lastNamed value a.1 index (m.namesOn e)).isNone) ++
    ((m.namesOn e).map String.ofList).dedup.filterMap fun name =>
      ((lastNamed value name index (m.namesOn e)).bind Value.attributeText).map (name, ·)

/-- The leaves of a range that holds texts, its two ends included. -/
def rangeLeaves (ts : List String) : List Leaf := .sentinel :: ts.map .text ++ [.sentinel]

mutual
/-- The trees that a tree becomes, whose placeholders are numbered from an index on. -/
def Tree.substitute (m : Markers) (value : Nat → Value) (index : Nat) : Tree → List Tree
  | .leaf l => [.leaf l]
  | .element e children =>
    if e.attributes.has m.nodes then
      (rangeLeaves (value (index + (m.namesOn e).length)).texts).map .leaf
    else
      [.element { e with attributes := m.filled value index e }
        (Tree.substituteAll m value (index + m.countOn e) children)]

/-- What several trees become. -/
def Tree.substituteAll (m : Markers) (value : Nat → Value) (index : Nat) : List Tree → List Tree
  | [] => []
  | t :: rest =>
    t.substitute m value index ++ Tree.substituteAll m value (index + m.count [t]) rest
end

/-! ## Looking up attributes -/

namespace Attributes

theorem get?_append (as bs : Attributes) (name : String) :
    Attributes.get? (as ++ bs) name = (as.get? name).or (bs.get? name) :=
  List.lookup_append

theorem get?_filter (as : Attributes) (keep : String → Bool) (name : String) :
    Attributes.get? (as.filter fun a => keep a.1) name
      = if keep name then as.get? name else none := by
  induction as with
  | nil => simp [get?]
  | cons a rest ih =>
      obtain ⟨other, value⟩ := a
      rw [List.filter_cons]
      unfold get? at ih ⊢
      by_cases hname : name = other
      · subst hname
        by_cases hkeep : keep name = true
        · simp [hkeep]
        · rw [if_neg hkeep, ih, if_neg hkeep, if_neg hkeep]
      · have hne : (name == other) = false := by simpa using hname
        by_cases hkeep : keep other = true
        · rw [if_pos hkeep, List.lookup_cons, List.lookup_cons, hne, ih]
        · rw [if_neg hkeep, List.lookup_cons, hne, ih]

theorem get?_filterMap (names : List String) (text : String → Option String) (name : String) :
    Attributes.get? (names.filterMap fun n => (text n).map (n, ·)) name
      = if name ∈ names then text name else none := by
  induction names with
  | nil => rfl
  | cons other rest ih =>
      unfold get? at ih ⊢
      rw [List.filterMap_cons]
      by_cases hname : name = other
      · subst hname
        rw [if_pos (by simp)]
        cases htext : text name with
        | some value => simp
        | none =>
            rw [htext] at ih
            simpa using ih
      · have hne : (name == other) = false := by simpa using hname
        have hiff : name ∈ other :: rest ↔ name ∈ rest := by simp [hname]
        simp only [hiff]
        cases text other with
        | none => exact ih
        | some value => rwa [Option.map_some, List.lookup_cons, hne]

end Attributes

/-- A name of a placeholder is one of the names. -/
theorem mem_of_lastNamed {value : Nat → Value} {name : String} {index : Nat}
    {names : List (List Char)} {v : Value} (h : lastNamed value name index names = some v) :
    name ∈ names.map String.ofList := by
  induction names generalizing index v with
  | nil => exact nomatch h
  | cons first rest ih =>
      unfold lastNamed at h
      cases hrest : lastNamed value name (index + 1) rest with
      | some v' => exact List.mem_cons_of_mem _ (ih hrest)
      | none =>
          rw [hrest, Option.none_or] at h
          by_cases hfirst : first ≠ [] ∧ String.ofList first = name
          · simp [hfirst.2]
          · rw [if_neg hfirst] at h
            exact nomatch h

/-- An attribute that is named is what the last placeholder of that name says, and any other one is
as it was. -/
theorem Markers.get?_filled (m : Markers) (value : Nat → Value) (index : Nat) (e : Element)
    (name : String) : (m.filled value index e).get? name =
      match lastNamed value name index (m.namesOn e) with
      | some v => v.attributeText
      | none => (e.attributes.erase m.attributes).get? name := by
  unfold filled
  rw [Attributes.get?_append, Attributes.get?_filter _ fun name =>
      (lastNamed value name index (m.namesOn e)).isNone,
    Attributes.get?_filterMap _ fun name =>
      (lastNamed value name index (m.namesOn e)).bind Value.attributeText]
  cases hlast : lastNamed value name index (m.namesOn e) with
  | none => simp
  | some v =>
      have hmem : name ∈ ((m.namesOn e).map String.ofList).dedup :=
        List.mem_dedup.mpr (mem_of_lastNamed hlast)
      rw [if_pos hmem]
      rfl

end LiveTemplate
