import LiveTemplate.Proofs.Instance.Counted
import LiveTemplate.Proofs.Substitution.Reading

/-!
# The holes of a template

What realizing a template makes can be said from its trees alone.  The nodes of the trees are
numbered in document order, and that number is the place of a hole: `Tree.holes` lists a hole for
every name in an attribute marker, and behind these one for the node marker of the same element.
`Tree.bound` is the tree that is left when the markers are gone.

An element that marks a range takes what stands below it out of the fragment.  The holes below it
are holes all the same.
-/

namespace LiveTemplate

set_option autoImplicit false

/-- A hole of a template, at the place of its element. -/
inductive Hole
  | named (place : Nat) (name : List Char)
  | range (place : Nat)
  deriving DecidableEq, Repr

namespace Hole

/-- The number of the element of a hole in document order. -/
def place : Hole → Nat
  | .named k _ => k
  | .range k => k

/-- The site of the part that a hole becomes when the copies are numbered from `first` on and `ends`
says which range takes the place of an element. -/
def site (first : NodeId) (ends : NodeId → NodeRange) : Hole → Site
  | .named k name => Site.ofMarkedName (first + k) name
  | .range k => .range (ends (first + k))

end Hole

/-- An element without its attribute marker. -/
def Markers.cleared (m : Markers) (e : Element) : Element :=
  { e with attributes := e.attributes.erase m.attributes }

/-- Whether an element gives way to a range: it carries the node marker.  If both markers have one
name, that is gone with the attribute marker. -/
def Markers.opens (m : Markers) (e : Element) : Bool :=
  e.attributes.has m.nodes && m.nodes != m.attributes

/-- The holes on one element: those of its names in order, then its range. -/
def Markers.holesOn (m : Markers) (place : Nat) (e : Element) : List Hole :=
  (m.namesOn e).map (Hole.named place) ++ if m.opens e then [.range place] else []

mutual
/-- The number of nodes of a tree. -/
def Tree.size : Tree → Nat
  | .leaf _ => 1
  | .element _ children => 1 + Tree.sizeAll children

/-- The number of nodes of trees. -/
def Tree.sizeAll : List Tree → Nat
  | [] => 0
  | t :: rest => t.size + Tree.sizeAll rest
end

theorem Tree.size_pos (t : Tree) : 0 < t.size := by
  cases t with
  | leaf l => exact Nat.one_pos
  | element e children => exact Nat.add_pos_left Nat.one_pos _

mutual
/-- The holes of a tree in document order, its topmost node being at the given place. -/
def Tree.holes (m : Markers) (place : Nat) : Tree → List Hole
  | .leaf _ => []
  | .element e children => m.holesOn place e ++ Tree.holesAll m (place + 1) children

/-- The holes of trees, one after another. -/
def Tree.holesAll (m : Markers) (place : Nat) : List Tree → List Hole
  | [] => []
  | t :: rest => t.holes m place ++ Tree.holesAll m (place + t.size) rest
end

mutual
/-- The trees that are left of a tree when its markers are bound: an element that marks a range is
replaced by the two ends of an empty one. -/
def Tree.bound (m : Markers) : Tree → List Tree
  | .leaf l => [.leaf l]
  | .element e children =>
    if m.opens e then [.leaf .sentinel, .leaf .sentinel]
    else [.element (m.cleared e) (Tree.boundAll m children)]

/-- What is left of several trees. -/
def Tree.boundAll (m : Markers) : List Tree → List Tree
  | [] => []
  | t :: rest => t.bound m ++ Tree.boundAll m rest
end

/-! ## Bound trees carry no marker -/

theorem Attributes.has_erase_self (as : Attributes) (name : String) :
    (as.erase name).has name = false := by
  rw [has_eq_isSome_get?, get?_erase_self]
  rfl

theorem Attributes.has_erase_of_ne (as : Attributes) {name asked : String} (h : asked ≠ name) :
    (as.erase name).has asked = as.has asked := by
  rw [has_eq_isSome_get?, get?_erase_of_ne as h, has_eq_isSome_get?]

/-- The node marker counts when the attribute marker is gone. -/
theorem Markers.has_cleared (m : Markers) (e : Element) :
    (m.cleared e).attributes.has m.nodes = m.opens e := by
  unfold Markers.opens Markers.cleared
  by_cases hm : m.nodes = m.attributes
  · rw [hm, Attributes.has_erase_self, bne_self_eq_false, Bool.and_false]
  · rw [Attributes.has_erase_of_ne _ hm, bne_iff_ne.mpr hm, Bool.and_true]

/-- Whether an element carries no marker. -/
def Markers.Spares (m : Markers) (e : Element) : Prop :=
  e.attributes.has m.attributes = false ∧ e.attributes.has m.nodes = false

mutual
/-- No element of a bound tree carries a marker. -/
theorem Tree.spares_bound {m : Markers} : ∀ (t : Tree) {e : Element},
    e ∈ Tree.elementsOfAll (t.bound m) → m.Spares e
  | .leaf _, _, h => nomatch h
  | .element e ts, e', h => by
      unfold Tree.bound at h
      cases hopens : m.opens e with
      | true =>
          rw [hopens, if_pos rfl] at h
          exact nomatch h
      | false =>
          rw [hopens, if_neg Bool.false_ne_true] at h
          change e' ∈ (m.cleared e :: Tree.elementsOfAll (Tree.boundAll m ts)) ++ [] at h
          rw [List.append_nil, List.mem_cons] at h
          rcases h with rfl | h
          · exact ⟨Attributes.has_erase_self _ _, (m.has_cleared e).trans hopens⟩
          · exact Tree.spares_boundAll ts h

theorem Tree.spares_boundAll {m : Markers} :
    ∀ (ts : List Tree) {e : Element}, e ∈ Tree.elementsOfAll (Tree.boundAll m ts) → m.Spares e
  | [], _, h => nomatch h
  | t :: ts, _, h => by
      unfold Tree.boundAll at h
      rw [Tree.elementsOfAll_append, List.mem_append] at h
      exact h.elim (Tree.spares_bound t) (Tree.spares_boundAll ts)
end

/-! ## Which holes are alike -/

/-- Two holes at different places of a list are never the same range. -/
def Hole.Apart (h h' : Hole) : Prop := ∀ k, h = .range k → h' ≠ .range k

theorem Hole.apart_of_place_ne {h h' : Hole} (hne : h.place ≠ h'.place) : h.Apart h' := by
  rintro k rfl rfl
  exact hne rfl

theorem Markers.place_of_mem_holesOn {m : Markers} {place : Nat} {e : Element} {h : Hole}
    (hmem : h ∈ m.holesOn place e) : h.place = place := by
  unfold Markers.holesOn at hmem
  rcases List.mem_append.mp hmem with hname | hrange
  · obtain ⟨name, -, rfl⟩ := List.mem_map.mp hname
    rfl
  · split at hrange
    · rw [List.mem_singleton.mp hrange]
      rfl
    · exact nomatch hrange

mutual
theorem Tree.place_of_mem_holes {m : Markers} : ∀ {t : Tree} {place : Nat} {h : Hole},
    h ∈ t.holes m place → place ≤ h.place ∧ h.place < place + t.size
  | .leaf _, _, _, hmem => nomatch hmem
  | .element e ts, place, h, hmem => by
      unfold Tree.size
      rcases List.mem_append.mp hmem with hown | hbelow
      · have hplace := m.place_of_mem_holesOn hown
        omega
      · have hplace := Tree.place_of_mem_holesAll hbelow
        omega

theorem Tree.place_of_mem_holesAll {m : Markers} : ∀ {ts : List Tree} {place : Nat} {h : Hole},
    h ∈ Tree.holesAll m place ts → place ≤ h.place ∧ h.place < place + Tree.sizeAll ts
  | [], _, _, hmem => nomatch hmem
  | t :: ts, place, h, hmem => by
      unfold Tree.sizeAll
      rcases List.mem_append.mp hmem with hfirst | hrest
      · have hplace := Tree.place_of_mem_holes hfirst
        omega
      · have hplace := Tree.place_of_mem_holesAll hrest
        omega
end

theorem Markers.pairwise_holesOn (m : Markers) (place : Nat) (e : Element) :
    (m.holesOn place e).Pairwise Hole.Apart := by
  unfold Markers.holesOn
  rw [List.pairwise_append]
  refine ⟨?_, ?_, ?_⟩
  · rw [List.pairwise_map]
    exact List.pairwise_of_forall fun _ _ => nofun
  · split
    · exact List.pairwise_singleton _ _
    · exact List.Pairwise.nil
  · intro h hmem _ _ k hk
    obtain ⟨name, -, rfl⟩ := List.mem_map.mp hmem
    exact nomatch hk

mutual
/-- Every range is listed once. -/
theorem Tree.pairwise_holes (m : Markers) : ∀ (t : Tree) (place : Nat),
    (t.holes m place).Pairwise Hole.Apart
  | .leaf _, _ => List.Pairwise.nil
  | .element e ts, place => by
      refine List.pairwise_append.mpr
        ⟨m.pairwise_holesOn place e, Tree.pairwise_holesAll m ts (place + 1), ?_⟩
      intro h hown h' hbelow
      have hplace := m.place_of_mem_holesOn hown
      have hplace' := Tree.place_of_mem_holesAll hbelow
      exact Hole.apart_of_place_ne (by omega)

theorem Tree.pairwise_holesAll (m : Markers) : ∀ (ts : List Tree) (place : Nat),
    (Tree.holesAll m place ts).Pairwise Hole.Apart
  | [], _ => List.Pairwise.nil
  | t :: ts, place => by
      refine List.pairwise_append.mpr
        ⟨Tree.pairwise_holes m t place, Tree.pairwise_holesAll m ts (place + t.size), ?_⟩
      intro h hfirst h' hrest
      have hplace := Tree.place_of_mem_holes hfirst
      have hplace' := Tree.place_of_mem_holesAll hrest
      exact Hole.apart_of_place_ne (by omega)
end

/-- Two entries of the list of holes are equal only if they are one entry, or the same name on the
same element. -/
theorem Tree.holesAll_getElem_eq_iff (m : Markers) (ts : List Tree) {i j : Nat}
    (hi : i < (Tree.holesAll m 0 ts).length) (hj : j < (Tree.holesAll m 0 ts).length) :
    (Tree.holesAll m 0 ts)[i] = (Tree.holesAll m 0 ts)[j] ↔ i = j ∨ ∃ k name,
      (Tree.holesAll m 0 ts)[i] = .named k name ∧ (Tree.holesAll m 0 ts)[j] = .named k name := by
  have hapart := List.pairwise_iff_getElem.mp (Tree.pairwise_holesAll m ts 0)
  constructor
  · intro heq
    cases hhole : (Tree.holesAll m 0 ts)[i] with
    | named k name => exact .inr ⟨k, name, rfl, heq.symm.trans hhole⟩
    | range k =>
        rcases Nat.lt_trichotomy i j with hlt | rfl | hlt
        · exact absurd (heq.symm.trans hhole) (hapart i j hi hj hlt k hhole)
        · exact .inl rfl
        · exact absurd hhole (hapart j i hj hi hlt k (heq.symm.trans hhole))
  · rintro (rfl | ⟨k, name, hi, hj⟩)
    · rfl
    · rw [hi, hj]

/-- Different holes have different sites when different elements have different ranges. -/
theorem Hole.site_injective {first : NodeId} {ends : NodeId → NodeRange}
    (hends : Function.Injective ends) : Function.Injective (Hole.site first ends) := by
  intro h h' heq
  cases h with
  | named k name =>
      cases h' with
      | named k' name' =>
          obtain ⟨hplace, rfl⟩ := Site.ofMarkedName_inj heq
          rw [Nat.add_left_cancel hplace]
      | range k' =>
          have hname := Site.ofMarkedName_ne_range (first + k) name (ends (first + k'))
          exact absurd heq hname
  | range k =>
      cases h' with
      | named k' name' =>
          have hname := Site.ofMarkedName_ne_range (first + k') name' (ends (first + k))
          exact absurd heq.symm hname
      | range k' => rw [Nat.add_left_cancel (hends (Site.range.inj heq))]

end LiveTemplate
