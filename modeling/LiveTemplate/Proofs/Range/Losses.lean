import LiveTemplate.Proofs.Range.Edits

/-!
# Edits that lose a node

A node that is to be moved is taken out of its place first, and only then is the child looked for
that it is to stand in front of or to replace.  If that child is missing, or is the node itself, the
edit fails and the node is in no place any more (`RangeStep.losses`).  Every other failure comes
before the first change: an index is looked up before anything else, and a node to remove is
checked first.

Main statement: `links_of_failed_edit`, which says for every call what a failure leaves behind.  An
entry assigned to its own index is lost, as in `assign_to_own_index_fails`.
-/

namespace LiveTemplate

set_option autoImplicit false

open Forest NodeRange RangeEdit RangeStep

variable {s : Session} {r : NodeRange} {f f₁ f' : Forest} {p n : NodeId}
  {before inside behind : List NodeId} {e : RangeEdit} {c : RangeStep} {fault : Fault}

/-! ## What a step loses -/

namespace RangeStep

/-- The node that a step moves. -/
def moved : RangeStep → List NodeId
  | .before n _ | .instead n _ => [n]
  | .out _ => []

/-- The node that a step takes out and cannot put anywhere: the child that it goes by is missing
then. -/
def losses (f : Forest) (p : NodeId) : RangeStep → List NodeId
  | .before n anchor | .instead n anchor =>
    if anchor ≠ n ∧ anchor ∈ f.children p then [] else [n]
  | .out _ => []

theorem losses_congr (h : f₁.children p = f.children p) (c : RangeStep) :
    c.losses f₁ p = c.losses f p := by
  cases c <;> simp only [losses, h]

theorem not_found {anchor : NodeId} (h : ¬ (anchor ≠ n ∧ anchor ∈ f.children p)) :
    anchor = n ∨ anchor ∉ f.children p := by
  rw [not_and_or, not_not] at h
  exact h

/-- A step that loses a node fails. -/
theorem run_of_losses (hf : f.Linked) (hp : r.parent f = .ok p) (hn : n ∈ c.losses f p) :
    c.run r f = .error .notAChild (f.counted.detach n) := by
  rw [run_eq_among hp]
  cases c with
  | out m => exact nomatch hn
  | before m anchor =>
      simp only [losses] at hn
      split at hn
      · exact nomatch hn
      · next hanchor =>
          obtain rfl := List.mem_singleton.mp hn
          exact insertBefore_of_not_mem hf (not_found hanchor)
  | instead m anchor =>
      simp only [losses] at hn
      split at hn
      · exact nomatch hn
      · next hanchor =>
          obtain rfl := List.mem_singleton.mp hn
          exact replaceChild_of_not_mem hf (not_found hanchor)

/-- A step that loses no node succeeds, unless it should take out what is not there. -/
theorem run_of_no_losses (hf : f.Linked) (hp : r.parent f = .ok p)
    (hmoved : ∀ n ∈ c.moved, n ≠ p ∧ n < f.nextId ∧ f.isFragment n = false)
    (h : c.losses f p = []) :
    (∃ f', c.run r f = .ok () f') ∨ c.run r f = .error .removesForeign f.counted := by
  rw [run_eq_among hp]
  cases c with
  | before n anchor =>
      obtain ⟨hnp, hlt, hfragment⟩ := hmoved n (List.mem_singleton_self n)
      simp only [losses] at h
      split at h
      · next hanchor =>
          obtain ⟨front, back, hsplit⟩ := List.append_of_mem hanchor.2
          obtain ⟨f', hrun, -⟩ :=
            relinked_insertBefore hf hsplit hanchor.1.symm hnp hlt hfragment
          exact .inl ⟨f', hrun⟩
      · exact nomatch h
  | instead n anchor =>
      obtain ⟨hnp, hlt, hfragment⟩ := hmoved n (List.mem_singleton_self n)
      simp only [losses] at h
      split at h
      · next hanchor =>
          obtain ⟨front, back, hsplit⟩ := List.append_of_mem hanchor.2
          obtain ⟨f', hrun, -⟩ :=
            relinked_replaceChild_moved hf hsplit hanchor.1.symm hnp hlt hfragment
          exact .inl ⟨f', hrun⟩
      · exact nomatch h
  | out n =>
      by_cases hn : n ∈ f.children p
      · obtain ⟨f', hrun, -⟩ := relinked_removeChild hf hn
        exact .inl ⟨f', hrun⟩
      · exact .inr (removeChild_of_not_mem hf hn)

/-- At most one node is lost. -/
theorem losses_cases (f : Forest) (p : NodeId) (c : RangeStep) :
    c.losses f p = [] ∨ ∃ n, c.losses f p = [n] := by
  cases c with
  | out m => exact .inl rfl
  | before m anchor | instead m anchor =>
      simp only [losses]
      split
      · exact .inl rfl
      · exact .inr ⟨m, rfl⟩

/-- A step that fails has taken out what it loses. -/
theorem children_of_failed (hf : f.Linked) (hp : r.parent f = .ok p)
    (hmoved : ∀ n ∈ c.moved, n ≠ p ∧ n < f.nextId ∧ f.isFragment n = false)
    (h : c.run r f = .error fault f') :
    f'.Linked ∧ ∀ q, f'.children q = (f.children q).filter (· ∉ c.losses f p) := by
  rcases losses_cases f p c with hnone | ⟨n, hone⟩
  · have hkept : f.counted = f' := by
      rcases run_of_no_losses hf hp hmoved hnone with ⟨f'', hrun⟩ | hrun
      · rw [hrun] at h
        exact nomatch h
      · exact (EStateM.Result.error.inj (hrun.symm.trans h)).2
    rw [← hkept, hnone]
    exact ⟨hf.counted, fun q => (filter_not_mem_nil _).symm⟩
  · have hn : n ∈ c.losses f p := by
      rw [hone]
      exact List.mem_singleton_self n
    obtain ⟨-, rfl⟩ := EStateM.Result.error.inj ((run_of_losses hf hp hn).symm.trans h)
    have hout := relinked_detach hf.counted n
    refine ⟨hout.linked, fun q => ?_⟩
    rw [hone, filter_not_mem_singleton]
    exact hout.children_eq q

end RangeStep

/-! ## What a call loses -/

namespace RangeEdit

/-- The node that a call loses. -/
def losses (r : NodeRange) (f : Forest) (p : NodeId) (inside : List NodeId) (e : RangeEdit) :
    List NodeId :=
  match e.step r inside f.nextId with
  | .ok c => c.losses f p
  | .error _ => []

theorem losses_of_step (h : e.step r inside f.nextId = .ok c) :
    e.losses r f p inside = c.losses f p := by
  unfold losses
  rw [h]

theorem losses_of_no_step (h : e.step r inside f.nextId = .error fault) :
    e.losses r f p inside = [] := by
  unfold losses
  rw [h]

/-- A step moves what its call puts into the range. -/
theorem moved_eq_put {fresh : NodeId} (h : e.step r inside fresh = .ok c) :
    c.moved = e.put fresh := by
  cases e with
  | insertBefore | remove | replace =>
      obtain rfl := Except.ok.inj h
      rfl
  | assign index v =>
      simp only [step] at h
      split at h
      · obtain rfl := Except.ok.inj h
        rfl
      · split at h
        · obtain rfl := Except.ok.inj h
          rfl
        · cases h
  | erase index =>
      simp only [step] at h
      split at h
      · obtain rfl := Except.ok.inj h
        rfl
      · cases h

/-- An entry is lost when it is assigned to its own index. -/
theorem losses_assign_self (i : Nat) (hi : i < inside.length) :
    (RangeEdit.assign i (.node inside[i])).losses r f p inside = [inside[i]] := by
  have hentry : (if (i : Int) < 0 then none else inside[(i : Int).toNat]?) = some inside[i] := by
    rw [if_neg (Int.not_lt.mpr (Int.natCast_nonneg i)), Int.toNat_natCast,
      List.getElem?_eq_getElem hi]
  unfold losses
  simp only [step, hentry]
  exact if_neg fun h => h.1 rfl

end RangeEdit

/-- The nodes that a call is given may be moved: they exist, are no fragments, and the range does
not stand in them. -/
def RangeEdit.Given (e : RangeEdit) (f : Forest) (p : NodeId) : Prop :=
  ∀ n ∈ e.taken, n ≠ p ∧ n < f.nextId ∧ f.isFragment n = false

section Calls

variable {s' : Session}

/-- So may what their step moves. -/
theorem RangeEdit.Given.moved (h : e.Given f p) (he : e.Proper) (hf : f.Linked)
    (hp : r.Stands f p before inside behind) (htext : e.WithText f f₁)
    (hstep : e.step r inside f.nextId = .ok c) :
    ∀ n ∈ c.moved, n ≠ p ∧ n < f₁.nextId ∧ f₁.isFragment n = false := by
  intro n hn
  rw [moved_eq_put hstep] at hn
  rcases mem_put he hn with hgiven | ⟨rfl, t, ht⟩
  · obtain ⟨hnp, hlt, hfragment⟩ := h n hgiven
    exact ⟨hnp, Nat.lt_of_lt_of_le hlt htext.grown.nextId_le,
      (htext.grown.isFragment_eq hlt).trans hfragment⟩
  · have hmovable := htext.grown.movable hf hp (Nat.le_refl _)
      (lt_nextId_of_text? (htext.text?_eq t ht))
    exact ⟨hmovable.ne_parent, hmovable.lt_nextId, hmovable.not_fragment⟩

/-- A call that fails has taken out what it loses. -/
theorem children_of_failed_edit (hf : s.forest.Linked)
    (hp : r.Stands s.forest p before inside behind) (he : e.Proper)
    (hgiven : e.Given s.forest p) (h : e.run r s = .error fault s') :
    s'.forest.Linked ∧ ∀ q, s'.forest.children q
      = (s.forest.children q).filter (· ∉ e.losses r s.forest p inside) := by
  obtain ⟨f₁, htext, hrun⟩ := run_eq hf hp he
  have hf₁ := htext.grown.linked hf
  have hp₁ : r.Stands f₁ p before inside behind := (htext.grown.views_eq p).1.trans hp
  rw [hrun] at h
  cases hstep : e.step r inside s.forest.nextId with
  | error fault' =>
      rw [hstep] at h
      obtain ⟨-, rfl⟩ := EStateM.Result.error.inj h
      rw [losses_of_no_step hstep]
      exact ⟨hf₁, fun q => by rw [filter_not_mem_nil]; exact (htext.grown.views_eq q).1⟩
  | ok c =>
      rw [hstep] at h
      cases hc : c.run r f₁ with
      | ok a f' =>
          rw [attempt, Live.edit_ok hc] at h
          exact nomatch h
      | error fault' f' =>
          rw [attempt, Live.edit_error hc] at h
          obtain ⟨-, rfl⟩ := EStateM.Result.error.inj h
          obtain ⟨hlinked, hchildren⟩ := children_of_failed hf₁ (hp₁.parent_eq hf₁)
            (hgiven.moved he hf hp htext hstep) hc
          refine ⟨hlinked, fun q => ?_⟩
          rw [losses_of_step hstep, ← losses_congr (htext.grown.views_eq p).1 c,
            ← (htext.grown.views_eq q).1]
          exact hchildren q

/-- A call that loses a node fails. -/
theorem edit_fails_of_losses (hf : s.forest.Linked)
    (hp : r.Stands s.forest p before inside behind) (he : e.Proper)
    (h : e.losses r s.forest p inside ≠ []) : ∃ s', e.run r s = .error .notAChild s' := by
  obtain ⟨f₁, htext, hrun⟩ := run_eq hf hp he
  have hf₁ := htext.grown.linked hf
  have hp₁ : r.Stands f₁ p before inside behind := (htext.grown.views_eq p).1.trans hp
  obtain ⟨n, hn⟩ := List.exists_mem_of_ne_nil _ h
  cases hstep : e.step r inside s.forest.nextId with
  | error fault =>
      rw [losses_of_no_step hstep] at hn
      exact nomatch hn
  | ok c =>
      rw [losses_of_step hstep, ← losses_congr (htext.grown.views_eq p).1 c] at hn
      have hlost := run_of_losses hf₁ (hp₁.parent_eq hf₁) hn
      exact ⟨_, by rw [hrun, hstep, attempt, Live.edit_error hlost]⟩

end Calls

/-- Taking nodes out leaves all links as they are exactly if the nodes stood alone. -/
theorem Forest.Linked.links_eq_iff {lost : List NodeId} (hf : f.Linked) (hf' : f'.Linked)
    (h : ∀ q, f'.children q = (f.children q).filter (· ∉ lost)) :
    (∀ n, f'.children n = f.children n ∧ f'.parent? n = f.parent? n) ↔
      ∀ n ∈ lost, f.parent? n = none := by
  constructor
  · intro hsame n hn
    rw [Option.eq_none_iff_forall_ne_some]
    intro q hq
    have hmem := hf.mem_children_iff.mpr hq
    rw [← (hsame q).1, h, List.mem_filter] at hmem
    simpa [hn] using hmem.2
  · intro halone
    have hchildren : ∀ q, f'.children q = f.children q := by
      intro q
      rw [h, filter_not_mem_of_disjoint]
      intro n hn hlost
      rw [hf.mem_children_iff, halone n hlost] at hn
      exact nomatch hn
    exact fun n => ⟨hchildren n, hf.parent?_congr hf' hchildren n⟩

/-- Of all links, a call that fails changes those of the node that it loses, so everything is left
as it was exactly if that node stood alone.  A call that loses a node always fails, and assigning an
entry to its own index loses the entry. -/
theorem links_of_failed_edit (hf : s.forest.Linked)
    (hp : r.Stands s.forest p before inside behind) :
    (∀ e : RangeEdit, e.Proper → e.Given s.forest p →
      (∀ fault s', e.run r s = .error fault s' →
        (∀ q, s'.forest.children q
          = (s.forest.children q).filter (· ∉ e.losses r s.forest p inside)) ∧
        ((∀ n, s'.forest.children n = s.forest.children n ∧
            s'.forest.parent? n = s.forest.parent? n) ↔
          ∀ n ∈ e.losses r s.forest p inside, s.forest.parent? n = none)) ∧
      (e.losses r s.forest p inside ≠ [] → ∃ s', e.run r s = .error .notAChild s')) ∧
    ∀ i (hi : i < inside.length),
      (RangeEdit.assign i (.node inside[i])).losses r s.forest p inside = [inside[i]] := by
  refine ⟨fun e he hgiven => ⟨fun fault s' h => ?_, edit_fails_of_losses hf hp he⟩,
    losses_assign_self⟩
  obtain ⟨hlinked, hchildren⟩ := children_of_failed_edit hf hp he hgiven h
  exact ⟨hchildren, hf.links_eq_iff hlinked hchildren⟩

/-- A text that should move in front of the list, which is not among the children of the list, is
lost. -/
theorem links_of_failed_edit_sampleList :
    NodeRange.Stands ⟨2, 5⟩ sampleList.forest 1 [] [3, 4] [6] ∧
      (RangeEdit.insertBefore 3 (some 1)).Given sampleList.forest 1 ∧
      (RangeEdit.insertBefore 3 (some 1)).losses ⟨2, 5⟩ sampleList.forest 1 [3, 4] = [3] ∧
      ∃ s', RangeEdit.run ⟨2, 5⟩ (.insertBefore 3 (some 1)) sampleList = .error .notAChild s' ∧
        s'.forest.children 1 = [2, 4, 5, 6] := by
  have hstands : NodeRange.Stands ⟨2, 5⟩ sampleList.forest 1 [] [3, 4] [6] := rfl
  have hgiven : (RangeEdit.insertBefore 3 (some 1)).Given sampleList.forest 1 := by
    intro n hn
    obtain rfl : n = 3 := List.mem_singleton.mp hn
    exact ⟨by decide, by decide, rfl⟩
  have hlosses : (RangeEdit.insertBefore 3 (some 1)).losses ⟨2, 5⟩ sampleList.forest 1 [3, 4]
      = [3] := by decide
  obtain ⟨hlinks, hfails⟩ := (links_of_failed_edit (s := sampleList) (by decide) hstands).1
    (.insertBefore 3 (some 1)) trivial hgiven
  obtain ⟨s', hrun⟩ := hfails (by rw [hlosses]; exact List.cons_ne_nil 3 [])
  refine ⟨hstands, hgiven, hlosses, s', hrun, ?_⟩
  rw [(hlinks _ _ hrun).1, hlosses]
  decide

/-- The first entry of the list is assigned to its own index: the call fails, and the entry has left
the list. -/
theorem assign_to_own_index_fails :
    NodeRange.items ⟨2, 5⟩ sampleList.forest = .ok [3, 4] ∧
      ∃ s', RangeEdit.run ⟨2, 5⟩ (.assign 0 (.node 3)) sampleList = .error .notAChild s' ∧
        NodeRange.items ⟨2, 5⟩ s'.forest = .ok [4] :=
  ⟨rfl, _, rfl, rfl⟩

end LiveTemplate
