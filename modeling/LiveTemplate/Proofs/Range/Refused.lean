import LiveTemplate.Proofs.Range.Brought
import LiveTemplate.Proofs.Range.Exactness

/-!
# What is refused is refused before the first edit

A call that gives a range new contents looks at the contents and walks the range before it edits
anything.  Both looks may fail, and then everything is as it was.  Behind them nothing fails any
more, whatever the contents are and wherever they stand, as long as none of them is around the
range: every node that is removed or sent home is a child of its parent, and the cursor of a walk
stays between the ends of the range, so the node under it is found among the children of the parent
(`arrange_brings`).

Main statements: `reconcile_returns` and `replaceContents_returns_or_refused`.
-/

namespace LiveTemplate

set_option autoImplicit false

open Forest

namespace NodeRange

variable {r : NodeRange} {f f' : Forest} {p : NodeId} {before inside behind : List NodeId}
  {placed : List Block} {contents : List Content} {items : List Item}

/-- Contents of which none is around the range: their nodes exist and are not above it. -/
def MayTake (r : NodeRange) (f : Forest) (contents : List Content) : Prop :=
  ∀ items, Content.allItems f contents = .ok items →
    ∀ n ∈ items.filterMap Item.node?, n < f.nextId ∧ ¬ f.Above n r.start

/-- Accepted contents that are not around the range may be brought into it. -/
theorem MayTake.insertable (hmay : r.MayTake f contents) (hf : f.Linked)
    (hr : r.Stands f p before inside behind) (hitems : r.wanted contents f = .ok items) :
    ∀ n ∈ items.filterMap Item.node?, r.Insertable f p n := by
  obtain ⟨hall, -, hends⟩ := wanted_eq_ok_iff.mp hitems
  have hstart : f.parent? r.start = some p := hf.mem_children_iff.mp (by rw [hr]; simp)
  intro n hn
  obtain ⟨hlt, habove⟩ := hmay items hall n hn
  refine ⟨(hends n hn).1, (hends n hn).2, ?_, hlt, fun _ hmem => ?_⟩
  · rintro rfl
    exact habove (.single hstart)
  · exact habove (.tail (.single (hf.mem_children_iff.mp hmem)) hstart)

/-- Reconciling a standing range with accepted contents succeeds if none of them is around it. -/
theorem reconcile_returns (hf : f.Linked) (hr : r.Stands f p before inside behind)
    (hitems : r.wanted contents f = .ok items) (hmay : r.MayTake f contents)
    (hplaced : ∀ b ∈ placed, f.isFragment b.home = true) :
    ∃ f', r.reconcile placed contents f = .ok (contents.filterMap Content.block?) f' := by
  obtain ⟨-, -, -, f', -, hrun, -⟩ :=
    reconcile_brought hf hr hitems (hmay.insertable hf hr hitems) rfl
      (isFragment_of_handedBack hplaced)
  exact ⟨f', hrun⟩

end NodeRange

open NodeRange

/-- A call that fails leaves everything as it was: the forest with its tally, and what the range
remembers.  It fails only if the contents are refused or the range does not stand, that is before
the first edit. -/
theorem Live.replaceContents_returns_or_refused {s : Session} {r : NodeRange}
    {contents : List Content} (hlinked : s.forest.Linked)
    (hplaced : ∀ b ∈ s.placedIn r, s.forest.isFragment b.home = true)
    (hmay : r.MayTake s.forest contents) :
    (∀ fault s', Live.replaceContents r contents s = .error fault s' → s' = s) ∧
      ∀ items inside, r.wanted contents s.forest = .ok items → r.items s.forest = .ok inside →
        ∃ s', Live.replaceContents r contents s = .ok () s' := by
  have hreturns : ∀ items inside, r.wanted contents s.forest = .ok items →
      r.items s.forest = .ok inside → ∃ s', Live.replaceContents r contents s = .ok () s' := by
    intro items inside hitems hinside
    obtain ⟨p, before, behind, hr⟩ := exists_stands hlinked hinside
    obtain ⟨f', hrun⟩ := reconcile_returns hlinked hr hitems hmay hplaced
    exact ⟨_, Live.replaceContents_ok hrun⟩
  refine ⟨fun fault s' hfailed => ?_, hreturns⟩
  cases hitems : r.wanted contents s.forest with
  | error fault' =>
      rw [Live.replaceContents_error (reconcile_error hitems)] at hfailed
      cases hfailed
      rfl
  | ok items =>
      cases hinside : r.items s.forest with
      | error fault' =>
          rw [Live.replaceContents_error (reconcile_items_error hitems hinside)] at hfailed
          cases hfailed
          rfl
      | ok inside =>
          obtain ⟨s'', hrun⟩ := hreturns items inside hitems hinside
          rw [hrun] at hfailed
          exact nomatch hfailed

/-- A node that is given twice is refused.  The fragment that the dropped instance goes home to is
not: what is in it by then comes back into the range with it. -/
theorem Live.replaceContents_returns_or_refused_sampleList :
    (∃ fault, Live.replaceContents ⟨2, 5⟩ [.text "eggs", .node 6, .node 6] sampleList
        = .error fault sampleList) ∧
      (∀ fault s', Live.replaceContents ⟨2, 5⟩ [.text "eggs", .node 6, .node 6] sampleList
        = .error fault s' → s' = sampleList) ∧
      ∃ s', Live.replaceContents ⟨2, 5⟩ [.node 7, .text "eggs", .node 6] sampleList
        = .ok () s' := by
  have hmay : ∀ contents items, Content.allItems sampleList.forest contents = .ok items →
      (∀ n ∈ items.filterMap Item.node?, 1 < n ∧ n < 8) →
        NodeRange.MayTake ⟨2, 5⟩ sampleList.forest contents := by
    intro contents items hitems hnodes items' hitems' n hn
    obtain rfl : items = items' := Except.ok.inj (hitems.symm.trans hitems')
    exact ⟨(hnodes n hn).2, not_above_sampleList (hnodes n hn).1⟩
  refine ⟨⟨_, rfl⟩, ?_, ?_⟩
  · exact (Live.replaceContents_returns_or_refused (s := sampleList) (by decide) (by decide)
      (hmay _ _ rfl (by decide))).1
  · exact (Live.replaceContents_returns_or_refused (s := sampleList) (by decide) (by decide)
      (hmay _ _ rfl (by decide))).2 _ _ rfl rfl

end LiveTemplate
