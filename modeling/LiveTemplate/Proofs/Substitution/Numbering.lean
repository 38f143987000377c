import LiveTemplate.Proofs.Instance.Realized
import LiveTemplate.Proofs.Substitution.Rounds

/-!
# The sites of planted trees

The parts of an instance stand in the order of the placeholders.  The nodes of the planted trees are
numbered in document order, so the sites of one tree follow one another: `sitesIn` lists those of
the nodes between two numbers.  A tree has as many of them as its markers count
(`length_sitesIn`), and a site is given its values by the placeholders on its own element
(`lastFor_attribute`, `lastFor_range`).
-/

namespace LiveTemplate

set_option autoImplicit false

open Forest

/-- The sites that the nodes from `a` on and before `b` are bound to. -/
def sitesIn (m : Markers) (g : Forest) (ranged : NodeId → Option NodeRange) (a b : NodeId) :
    List Site :=
  (List.range' a (b - a)).flatMap (Edit.boundSites m g ranged)

section Lists

variable {m : Markers} {g : Forest} {ranged : NodeId → Option NodeRange} {a b c n k : NodeId}
  {p : Site} {r : NodeRange} {name : String}

@[simp] theorem sitesIn_self : sitesIn m g ranged a a = [] := by
  unfold sitesIn
  rw [Nat.sub_self]
  rfl

theorem sitesIn_append (hab : a ≤ b) (hbc : b ≤ c) :
    sitesIn m g ranged a c = sitesIn m g ranged a b ++ sitesIn m g ranged b c := by
  unfold sitesIn
  rw [← List.flatMap_append]
  congr 1
  have hb : a + (b - a) = b := Nat.add_sub_cancel' hab
  rw [show c - a = (b - a) + (c - b) by rw [Nat.add_comm, Nat.sub_add_sub_cancel hbc hab],
    ← List.range'_append_1, hb]

theorem sitesIn_succ : sitesIn m g ranged n (n + 1) = Edit.boundSites m g ranged n := by
  unfold sitesIn
  rw [Nat.add_sub_cancel_left]
  show Edit.boundSites m g ranged n ++ [] = _
  rw [List.append_nil]

theorem mem_sitesIn : p ∈ sitesIn m g ranged a b ↔
    ∃ n, (a ≤ n ∧ n < b) ∧ p ∈ Edit.boundSites m g ranged n := by
  unfold sitesIn
  rw [List.mem_flatMap]
  simp only [mem_range'_sub]

/-- Names belong to their element. -/
theorem attribute_mem_boundSites (h : .attribute n name ∈ Edit.boundSites m g ranged k) :
    k = n := by
  rcases List.mem_append.mp h with h | h
  · obtain ⟨marked, hmarked⟩ := Site.exists_name_of_mem_noted h
    unfold Site.ofMarkedName at hmarked
    split at hmarked
    · exact nomatch hmarked
    · cases hmarked
      rfl
  · obtain ⟨r, -, hr⟩ := List.mem_map.mp h
    exact nomatch hr

/-- Ranges belong to the element that marks them. -/
theorem range_mem_boundSites (h : .range r ∈ Edit.boundSites m g ranged k) :
    ranged k = some r := by
  rcases List.mem_append.mp h with h | h
  · exact absurd h Site.range_not_mem_noted
  · obtain ⟨r', hr', hr⟩ := List.mem_map.mp h
    cases hr
    simpa using hr'

end Lists

/-! ## The values of the sites of one element -/

section Values

variable {m : Markers} {value : Nat → Value} {index : Nat} {n : NodeId} {names : List (List Char)}

/-- An attribute is given what the placeholders of its name say. -/
theorem lastFor_names (name : String) :
    lastFor value (.attribute n name) index (names.map (Site.ofMarkedName n))
      = lastNamed value name index names := by
  induction names generalizing index with
  | nil => rfl
  | cons first rest ih =>
      rw [List.map_cons, lastFor_cons, ih]
      show _ = (lastNamed value name (index + 1) rest).or _
      congr 2
      unfold Site.ofMarkedName
      cases first with
      | nil => simp
      | cons c cs => simp

end Values

/-! ## Planted and bound trees -/

section Bound

variable {m : Markers} {g made : Forest} {ranged : NodeId → Option NodeRange} {first n : NodeId}
  {e : Element} {r : NodeRange}

/-- The sites of an attribute marker are those of its names. -/
theorem noted_eq (he : g.element? n = some e) :
    Site.noted m g n = (m.namesOn e).map (Site.ofMarkedName n) := by
  unfold Site.noted Markers.namesOn attribute?
  rw [he]
  dsimp only [Option.bind]
  cases e.attributes.get? m.attributes <;> rfl

theorem countOn_eq (m : Markers) (e : Element) :
    m.countOn e = (m.namesOn e).length + if e.attributes.has m.nodes then 1 else 0 := by
  unfold Markers.countOn Markers.namesOn
  cases e.attributes.get? m.attributes <;> rfl

theorem count_cons (m : Markers) (t : Tree) (ts : List Tree) :
    m.count (t :: ts) = m.count [t] + m.count ts := by
  have hsum : ∀ trees, m.count trees = ((Tree.elementsOfAll trees).map m.countOn).sum :=
    fun _ => List.sum_eq_foldr.symm
  rw [hsum, hsum, hsum]
  show ((t.elements ++ Tree.elementsOfAll ts).map m.countOn).sum
    = ((t.elements ++ []).map m.countOn).sum + ((Tree.elementsOfAll ts).map m.countOn).sum
  rw [List.append_nil, List.map_append, List.sum_append]

theorem count_element (m : Markers) (e : Element) (ts : List Tree) :
    m.count [.element e ts] = m.countOn e + m.count ts := by
  show (((e :: Tree.elementsOfAll ts) ++ []).map m.countOn).foldr (· + ·) 0 = _
  rw [List.append_nil, List.map_cons, List.foldr_cons]
  rfl

/-- Leaves are not marked. -/
theorem not_mem_marked_of_leaf {l : Leaf} (h : g.kind? n = some (.leaf l)) :
    n ∉ g.marked m first := by
  intro hmem
  obtain ⟨-, e, he, -⟩ := mem_marked.mp hmem
  rw [element?_eq, h] at he
  exact nomatch he

theorem has_of_marksRange (h : m.marksRange e = true) : e.attributes.has m.nodes = true := by
  unfold Markers.marksRange at h
  by_cases hm : m.nodes = m.attributes
  · rw [hm, Attributes.get?_erase_self] at h
    exact nomatch h
  · rwa [Attributes.get?_erase_of_ne _ hm, ← Attributes.has_eq_isSome_get?] at h

/-- A marked element is bound to its range. -/
theorem range_mem_sitesIn (hle : first ≤ n) (hn : n < g.nextId) (hr : ranged n = some r) :
    .range r ∈ sitesIn m g ranged first g.nextId := by
  refine mem_sitesIn.mpr ⟨n, ⟨hle, hn⟩, List.mem_append_right _ ?_⟩
  rw [hr]
  exact List.mem_singleton.mpr rfl

variable (hm : m.attributes ≠ m.nodes)
  (hbound : Edit.Bound m g made (g.marked m first) ranged)

include hbound

/-- Every element has lost its attribute marker, if it had one. -/
theorem element?_made (he : g.element? n = some e) (hle : first ≤ n) :
    made.element? n = some { e with attributes := e.attributes.erase m.attributes } := by
  have hkind := Edit.kind?_of_element? he
  have hn := lt_nextId_of_kind? hkind
  refine Edit.element?_of_kind? ?_
  rw [hbound.kind?_eq n hn, hkind]
  by_cases hmem : n ∈ g.marked m first
  · rw [if_pos hmem]
    rfl
  · have hget : e.attributes.get? m.attributes = none := by
      by_contra hne
      refine hmem (mem_marked.mpr ⟨⟨hle, hn⟩, e, he, ?_⟩)
      rw [Attributes.has_eq_isSome_get?, Option.isSome_iff_ne_none.mpr hne]
      rfl
    rw [if_neg hmem, Edit.erase_of_get?_eq_none hget]

/-- What is not marked has no sites. -/
theorem boundSites_eq_nil (hle : first ≤ n) (hn : n ∉ g.marked m first) :
    Edit.boundSites m g ranged n = [] := by
  have hnoted : g.attribute? n m.attributes = none := by
    by_contra hne
    obtain ⟨names, hnames⟩ := Option.ne_none_iff_exists'.mp hne
    unfold attribute? at hnames
    obtain ⟨e, he, hget⟩ := Option.bind_eq_some_iff.mp hnames
    refine hn (mem_marked.mpr ⟨⟨hle, ?_⟩, e, he, ?_⟩)
    · exact lt_nextId_of_kind? (Edit.kind?_of_element? he)
    · rw [Attributes.has_eq_isSome_get?, hget]
      rfl
  unfold Edit.boundSites Site.noted
  rw [hbound.unranged hn, hnoted]
  rfl

/-- The sites of the marked elements are those of all nodes. -/
theorem flatMap_boundSites : (g.marked m first).flatMap (Edit.boundSites m g ranged)
    = sitesIn m g ranged first g.nextId := by
  unfold marked sitesIn
  rw [flatMap_filter_eq]
  refine List.flatMap_congr fun n hn => ?_
  by_cases hmem : n ∈ g.marked m first
  · rw [if_pos (List.mem_filter.mp hmem).2]
  · have hnot := fun hkeep => hmem (List.mem_filter.mpr ⟨hn, hkeep⟩)
    rw [if_neg hnot, boundSites_eq_nil hbound (mem_range'_sub.mp hn).1 hmem]

/-- Exactly the elements that mark a range have one. -/
theorem ranged_isSome_eq_marksRange (he : g.element? n = some e) (hn : first ≤ n) :
    (ranged n).isSome = m.marksRange e := by
  rw [hbound.ranged_isSome n e he]
  cases hmarks : m.marksRange e with
  | false => exact Bool.and_false _
  | true =>
      rw [Bool.and_true]
      refine decide_eq_true (mem_marked.mpr ⟨⟨hn, ?_⟩, e, he, ?_⟩)
      · exact lt_nextId_of_kind? (Edit.kind?_of_element? he)
      · rw [has_of_marksRange hmarks, Bool.or_true]

include hm

/-- If the markers differ, these are the ones that carry the node marker. -/
theorem ranged_isSome_iff (he : g.element? n = some e) (hn : first ≤ n) :
    (ranged n).isSome = e.attributes.has m.nodes := by
  rw [ranged_isSome_eq_marksRange hbound he hn, Markers.marksRange,
    Attributes.get?_erase_of_ne _ (Ne.symm hm), Attributes.has_eq_isSome_get?]

/-- An element has as many sites as its markers count. -/
theorem length_boundSites (he : g.element? n = some e) (hn : first ≤ n) :
    (Edit.boundSites m g ranged n).length = m.countOn e := by
  unfold Edit.boundSites
  rw [List.length_append, noted_eq he, List.length_map, List.length_map, countOn_eq,
    ← ranged_isSome_iff hm hbound he hn]
  cases ranged n <;> rfl

omit hm hbound

mutual
/-- A tree has as many sites as its markers count. -/
theorem length_sitesIn (hm : m.attributes ≠ m.nodes)
    (hbound : Edit.Bound m g made (g.marked m first) ranged) : ∀ {t : Tree} {n stop : NodeId},
    Stand g t n stop → first ≤ n → (sitesIn m g ranged n stop).length = m.count [t]
  | .leaf l, n, stop, hstand, hn => by
      obtain ⟨hkind, -, rfl⟩ := hstand
      rw [sitesIn_succ, boundSites_eq_nil hbound hn (not_mem_marked_of_leaf hkind)]
      rfl
  | .element e ts, n, stop, hstand, hn => by
      have he := Edit.element?_of_kind? hstand.1
      have hbelow : StandAll g ts (g.children n) (n + 1) stop := hstand.2
      rw [sitesIn_append (Nat.le_succ n) hbelow.le, List.length_append,
        sitesIn_succ, length_boundSites hm hbound he hn,
        length_sitesIn_all hm hbound hbelow (Nat.le_succ_of_le hn), count_element]

theorem length_sitesIn_all (hm : m.attributes ≠ m.nodes)
    (hbound : Edit.Bound m g made (g.marked m first) ranged) :
    ∀ {ts : List Tree} {ns : List NodeId} {n stop : NodeId}, StandAll g ts ns n stop →
    first ≤ n → (sitesIn m g ranged n stop).length = m.count ts
  | [], _, n, stop, hstand, _ => by
      rw [hstand.2, sitesIn_self]
      rfl
  | t :: ts, _, n, stop, hstand, hn => by
      obtain ⟨mid, others, -, htree, hrest⟩ := hstand
      rw [sitesIn_append (Nat.le_of_lt htree.lt) hrest.le, List.length_append,
        length_sitesIn hm hbound htree hn, length_sitesIn_all hm hbound hrest
          (Nat.le_trans hn (Nat.le_of_lt htree.lt)), count_cons m t ts]
end

section Element

variable {value : Nat → Value} (he : g.element? n = some e) (hn : first ≤ n)

include he hn

/-- The sites of one element stand together. -/
theorem sitesIn_eq_middle : sitesIn m g ranged first g.nextId = sitesIn m g ranged first n ++
    (Edit.boundSites m g ranged n ++ sitesIn m g ranged (n + 1) g.nextId) := by
  have hlt : n < g.nextId := lt_nextId_of_kind? (Edit.kind?_of_element? he)
  rw [sitesIn_append hn (Nat.le_of_lt hlt), sitesIn_append (Nat.le_succ n) hlt, sitesIn_succ]

/-- An attribute is given what the placeholders of its name on its element say. -/
theorem lastFor_attribute (name : String) :
    lastFor value (.attribute n name) 0 (sitesIn m g ranged first g.nextId)
      = lastNamed value name (sitesIn m g ranged first n).length (m.namesOn e) := by
  have hout : ∀ {a b}, (b ≤ n ∨ n < a) → .attribute n name ∉ sitesIn m g ranged a b := by
    intro a b hab hmem
    obtain ⟨k, ⟨hak, hkb⟩, hk⟩ := mem_sitesIn.mp hmem
    obtain rfl := attribute_mem_boundSites hk
    rcases hab with hb | ha
    · exact absurd hkb (Nat.not_lt.mpr hb)
    · exact absurd hak (Nat.not_le.mpr ha)
  have hnot : .attribute n name ∉ (ranged n).toList.map Site.range := by
    intro hmem
    obtain ⟨r, -, hr⟩ := List.mem_map.mp hmem
    exact nomatch hr
  rw [sitesIn_eq_middle he hn, lastFor_middle (hout (.inl (Nat.le_refl n)))
    (hout (.inr (Nat.lt_succ_self n)))]
  unfold Edit.boundSites
  rw [noted_eq he, lastFor_append, lastFor_eq_none_iff.mpr hnot, Option.none_or, lastFor_names]

/-- A range is given what its own placeholder says. -/
theorem lastFor_range (hbound : Edit.Bound m g made (g.marked m first) ranged)
    (hr : ranged n = some r) : lastFor value (.range r) 0 (sitesIn m g ranged first g.nextId)
      = some (value ((sitesIn m g ranged first n).length + (m.namesOn e).length)) := by
  have hout : ∀ {a b}, (b ≤ n ∨ n < a) → .range r ∉ sitesIn m g ranged a b := by
    intro a b hab hmem
    obtain ⟨k, ⟨hak, hkb⟩, hk⟩ := mem_sitesIn.mp hmem
    have hkr := range_mem_boundSites hk
    have hne : n ≠ k := by
      rintro rfl
      rcases hab with hb | ha
      · exact absurd hkb (Nat.not_lt.mpr hb)
      · exact absurd hak (Nat.not_le.mpr ha)
    have hstop := (hbound.fresh n r hr).2.2.1
    rcases hbound.apart n k r r hr hkr hne with hlt | hlt <;>
    · rw [hstop] at hlt
      exact absurd hlt (Nat.not_lt.mpr (Nat.le_succ _))
  rw [sitesIn_eq_middle he hn, lastFor_middle (hout (.inl (Nat.le_refl n)))
    (hout (.inr (Nat.lt_succ_self n)))]
  unfold Edit.boundSites
  rw [noted_eq he, hr, lastFor_append, List.length_map]
  show (lastFor value (.range r) _ [.range r]).or _ = _
  rw [lastFor_cons, if_pos rfl]
  rfl

end Element

end Bound

end LiveTemplate
