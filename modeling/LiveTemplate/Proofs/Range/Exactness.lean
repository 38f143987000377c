import LiveTemplate.Proofs.Session.Calls

/-!
# A range holds exactly what it is given

Main statement: when a call that gives a range new contents returns, the range holds one node for
each of the items that the contents stood for before the call, in their order: the very node for a
node and for every root of an instance, and a text with the same characters for a string.  No node
serves two items, and nothing else is in the range.
-/

namespace LiveTemplate

set_option autoImplicit false

open Forest NodeRange

/-- Contents that a range may be given: their nodes exist, are no fragments and are not above the
range. -/
def NodeRange.MayHold (r : NodeRange) (f : Forest) (contents : List Content) : Prop :=
  ∀ items, Content.allItems f contents = .ok items →
    ∀ n ∈ items.filterMap Item.node?, n < f.nextId ∧ f.isFragment n = false ∧ ¬ f.Above n r.start

/-- What may be held is not the node that the range stands in. -/
theorem NodeRange.MayHold.ne_parent {r : NodeRange} {f : Forest} {contents : List Content}
    {items : List Item} {p : NodeId} {before inside behind : List NodeId} (hf : f.Linked)
    (h : r.MayHold f contents) (hr : r.Stands f p before inside behind)
    (hitems : Content.allItems f contents = .ok items) :
    ∀ n ∈ items.filterMap Item.node?, n ≠ p ∧ n < f.nextId ∧ f.isFragment n = false := by
  intro n hn
  obtain ⟨hlt, hfragment, habove⟩ := h items hitems n hn
  refine ⟨?_, hlt, hfragment⟩
  rintro rfl
  exact habove (.single (hf.mem_children_iff.mp (by rw [hr]; simp)))

/-- A call that returns has reconciled the range with contents that it may hold, and remembers the
instances among them. -/
theorem Live.reconciled_of_replaceContents {s s' : Session} {r : NodeRange}
    {contents : List Content} (hlinked : s.forest.Linked)
    (hplaced : ∀ b ∈ s.placedIn r, s.forest.isFragment b.home = true)
    (hmay : r.MayHold s.forest contents) (hrun : Live.replaceContents r contents s = .ok () s') :
    ∃ items p before inside behind held, r.wanted contents s.forest = .ok items ∧
      r.Stands s.forest p before inside behind ∧
      s' = ({ s with forest := s'.forest }).remember r (contents.filterMap Content.block?) ∧
      Reconciled r s.forest s'.forest p before inside behind items
        (handedBack s.forest (s.placedIn r) contents inside (items.filterMap Item.node?)) held := by
  obtain ⟨blocks, f, hreconcile, rfl⟩ := replaceContents_eq_ok hrun
  obtain ⟨items, p, before, inside, behind, hwanted, hr⟩ := accepted_of_reconcile hlinked hreconcile
  obtain ⟨held, f', hrun', hdone⟩ := reconcile_ok hlinked hr hwanted
    (hmay.ne_parent hlinked hr (wanted_eq_ok_iff.mp hwanted).1) hplaced
  rw [hreconcile] at hrun'
  cases hrun'
  exact ⟨items, p, before, inside, behind, held, hwanted, hr, rfl, hdone⟩

/-- A range that was given new contents holds exactly these, whatever instances it remembers: their
homes are fragments, as those of all instances are. -/
theorem items_of_replaceContents {s s' : Session} {r : NodeRange} {contents : List Content}
    (hlinked : s.forest.Linked)
    (hstands : ∃ p before inside behind, r.Stands s.forest p before inside behind)
    (hplaced : ∀ b ∈ s.placedIn r, s.forest.isFragment b.home = true)
    (hmay : r.MayHold s.forest contents)
    (hrun : Live.replaceContents r contents s = .ok () s') :
    ∃ items held, Content.allItems s.forest contents = .ok items ∧
      r.items s'.forest = .ok held ∧ List.Forall₂ (Serves s'.forest) items held ∧ held.Nodup := by
  obtain ⟨p, before, inside, behind, hr⟩ := hstands
  cases hwanted : r.wanted contents s.forest with
  | error fault =>
      rw [Live.replaceContents_error (reconcile_error hwanted)] at hrun
      exact nomatch hrun
  | ok items =>
      have hitems := (wanted_eq_ok_iff.mp hwanted).1
      obtain ⟨held, f', hreconcile, hdone⟩ := reconcile_ok hlinked hr hwanted
        (hmay.ne_parent hlinked hr hitems) hplaced
      rw [Live.replaceContents_ok hreconcile] at hrun
      cases hrun
      have hchildren := hdone.children_eq p
      rw [if_pos rfl, List.append_assoc, List.cons_append, List.append_assoc,
        List.cons_append] at hchildren
      have hstands' : r.Stands f' p (before.filter (· ∉ held)) held
          (behind.filter (· ∉ held) ++ homecomings _ p) := hchildren
      exact ⟨items, held, hitems, hstands'.items_eq hdone.linked, hdone.serves, hdone.nodup⟩

/-- A list whose range, between the nodes 2 and 5, holds a text and the one root of an instance.
Behind the range stands another text. -/
def sampleList : Session where
  forest :=
    { nodes := #[
        { kind := .fragment, children := [1] },
        { kind := .element { name := "ul" }, parent := some 0, children := [2, 3, 4, 5, 6] },
        { kind := .leaf .sentinel, parent := some 1 },
        { kind := .leaf (.text "milk"), parent := some 1 },
        { kind := .element { name := "li" }, parent := some 1 },
        { kind := .leaf .sentinel, parent := some 1 },
        { kind := .leaf (.text "eggs"), parent := some 1 },
        { kind := .fragment }] }
  placed := [(⟨2, 5⟩, [⟨0, 7, some (4, 4)⟩])]

/-- Nothing but the list and its fragment is above the range. -/
theorem not_above_sampleList {n : NodeId} (h : 1 < n) : ¬ sampleList.forest.Above n 2 :=
  not_above_of_parent? (p := 1) rfl (Nat.ne_of_gt h)
    (not_above_of_parent? (p := 0) rfl (Nat.ne_of_gt (Nat.zero_lt_of_lt h))
      (not_above_of_alone rfl))

/-- The range of the list may hold everything that stands below the list. -/
theorem mayHold_sampleList {contents : List Content} {items : List Item}
    (hitems : Content.allItems sampleList.forest contents = .ok items)
    (hnodes : ∀ n ∈ items.filterMap Item.node?, 1 < n ∧ n < 7) :
    NodeRange.MayHold ⟨2, 5⟩ sampleList.forest contents := by
  intro items' hitems' n hn
  obtain rfl : items = items' := Except.ok.inj (hitems.symm.trans hitems')
  obtain ⟨habove, hbelow⟩ := hnodes n hn
  have hfragment : ∀ m < 7, 1 < m → sampleList.forest.isFragment m = false := by decide
  exact ⟨Nat.lt_succ_of_lt hbelow, hfragment n hbelow habove, not_above_sampleList habove⟩

/-- The instance is dropped, the text behind the range is moved into it, and of two equal strings
one takes over the text that is there. -/
theorem items_of_replaceContents_sampleList :
    ∃ s', Live.replaceContents ⟨2, 5⟩ [.node 6, .text "milk", .text "milk"] sampleList
        = .ok () s' ∧
      ∃ items held, Content.allItems sampleList.forest [.node 6, .text "milk", .text "milk"]
          = .ok items ∧
        NodeRange.items ⟨2, 5⟩ s'.forest = .ok held ∧
        List.Forall₂ (Serves s'.forest) items held ∧ held.Nodup := by
  refine ⟨_, rfl, items_of_replaceContents (s := sampleList) (by decide)
    ⟨1, [], [3, 4], [6], rfl⟩ (by decide) ?_ rfl⟩
  intro items hitems n hn
  cases hitems
  obtain rfl : n = 6 := List.mem_singleton.mp hn
  exact ⟨by decide, by decide, not_above_of_parent? (p := 1) rfl (by decide)
    (not_above_of_parent? (p := 0) rfl (by decide) (not_above_of_alone rfl))⟩

end LiveTemplate
