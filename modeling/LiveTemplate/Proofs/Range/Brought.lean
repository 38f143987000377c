import LiveTemplate.Proofs.Range.Reconciled

/-!
# Reconciling a range with fragments

The contents of a range may name fragments.  Behind the first half of a reconciliation, in which
nodes are found for all items and blocks go home, nothing is special about them; the walks bring in
what is in them by then (`restocked`), which is what they held before and what has come home to
them.  So the range ends up with what is brought in for its target, and the fragments end up
empty.

Main statement: `reconcile_brought`.  Other than `reconcile_ok` it allows fragments among the
contents.
-/

namespace LiveTemplate

set_option autoImplicit false

open Forest

namespace NodeRange

variable {r : NodeRange} {f f' : Forest} {p n : NodeId} {before inside behind : List NodeId}
  {placed : List Block} {contents : List Content} {items : List Item}
  {released : List (Block × List NodeId)} {target : List NodeId}

/-- What is in a node once blocks have come home. -/
def restocked (f : Forest) (released : List (Block × List NodeId)) (q : NodeId) : List NodeId :=
  f.children q ++ homecomings released q

/-- What a reconciliation has made of the forest `f`: `target` has one node for every item, and the
range holds what these bring in. -/
structure Brought (r : NodeRange) (f f' : Forest) (p : NodeId) (before behind : List NodeId)
    (items : List Item) (released : List (Block × List NodeId)) (target held : List NodeId) :
    Prop where
  linked : f'.Linked
  serves : List.Forall₂ (Serves f') items target
  nodup : target.Nodup
  held_eq : target.flatMap (f.brings (restocked f released) (items.filterMap Item.node?)) = held
  stands : r.Stands f' p (before.filter (· ∉ held)) held
    ((behind ++ homecomings released p).filter (· ∉ held))
  children_eq : ∀ q, q ≠ p → f'.children q = (restocked f released q).filter (· ∉ held)
  nextId_le : f.nextId ≤ f'.nextId
  kind?_eq : ∀ n, n < f.nextId → f'.kind? n = f.kind? n

/-- Of what stands elsewhere once blocks have come home, the nodes that serve items are those that
are asked for. -/
theorem Cleared.mem_target_iff (hf : f.Linked) (hr : r.Stands f p before inside behind)
    (h : Cleared r f f' p before inside behind items released target) {q : NodeId} (hq : q ≠ p)
    (hn : n ∈ restocked f released q) : n ∈ target ↔ n ∈ items.filterMap Item.node? := by
  refine ⟨fun htarget => ?_, mem_of_serves h.serves⟩
  rcases List.mem_append.mp hn with hchild | hhome
  · rcases h.origin n htarget with hitem | ⟨hold, -⟩ | hnew
    · exact hitem
    · exact absurd (hf.parent_unique hchild (hr.mem_children hold)) hq
    · exact absurd (hf.lt_nextId hchild) (Nat.not_lt.mpr hnew)
  · obtain ⟨e, he, -, hroots⟩ := exists_of_mem_homecomings hhome
    exact absurd (List.mem_flatMap.mpr ⟨e, he, hroots⟩) (h.apart n htarget)

/-- What serves the items may be brought into the range if their nodes may. -/
theorem Cleared.insertable (hf : f.Linked) (hr : r.Stands f p before inside behind)
    (hins : ∀ n ∈ items.filterMap Item.node?, r.Insertable f p n)
    (h : Cleared r f f' p before inside behind items released target)
    (hreleased : ∀ q, p ∉ homecomings released q) :
    ∀ n ∈ target, r.Insertable f' p n := by
  intro n hn
  have hparent : n ≠ p := by
    rintro rfl
    exact (hins n (h.parent_mem hf hr hn)).ne_parent rfl
  by_cases hfragment : n ∈ items.filterMap Item.node? ∧ f.isFragment n = true
  · obtain ⟨hitem, hfragment⟩ := hfragment
    have hn' := hins n hitem
    refine ⟨hn'.ne_start, hn'.ne_stop, hparent, Nat.lt_of_lt_of_le hn'.lt_nextId h.nextId_le, ?_⟩
    intro _ hmem
    rw [h.children_eq, if_neg hparent] at hmem
    exact (List.mem_append.mp hmem).elim (hn'.not_around hfragment) (hreleased n)
  · exact (h.movable n hn hparent fun hitem =>
      Bool.eq_false_iff.mpr fun hn' => hfragment ⟨hitem, hn'⟩).insertable

/-- The first half of a reconciliation makes no fragments. -/
theorem Cleared.isFragment_eq (h : Cleared r f f' p before inside behind items released target)
    (hn : n ∈ target) (hparent : n ≠ p) : f'.isFragment n = f.isFragment n := by
  by_cases hlt : n < f.nextId
  · exact isFragment_congr (h.kind?_eq n hlt)
  · have hnone : f.isFragment n = false := by
      rw [isFragment, node?_eq_none_iff.mpr (Nat.le_of_not_lt hlt)]
    rw [hnone, (h.movable n hn hparent fun _ => hnone).not_fragment]

/-- Reconciling a standing range with accepted contents succeeds, whether there are fragments among
them or not. -/
theorem reconcile_brought (hf : f.Linked) (hr : r.Stands f p before inside behind)
    (hitems : r.wanted contents f = .ok items)
    (hins : ∀ n ∈ items.filterMap Item.node?, r.Insertable f p n)
    (hreleased : handedBack f placed contents inside (items.filterMap Item.node?) = released)
    (hhome : ∀ e ∈ released, f.isFragment e.1.home = true) :
    ∃ target held f₁ f', nodesFor (spareTexts f inside (items.filterMap Item.node?)
          (released.flatMap (·.2))) items f = .ok target f₁ ∧
      r.reconcile placed contents f = .ok (contents.filterMap Content.block?) f' ∧
      Brought r f f' p before behind items released target held := by
  obtain ⟨target, f₁, f₂, f₃, hfind, hremove, hsend, hcleared⟩ :=
    cleared_ok hf hr hitems (fun n hn => (hins n hn).lt_nextId) hreleased hhome
  have hout : ∀ q, p ∉ homecomings released q := fun q hq =>
    hf.ne_of_mem_children (hr.mem_children (mem_of_mem_homecomings (hreleased ▸ hq))) rfl
  have hinsertable := hcleared.insertable hf hr hins hout
  obtain ⟨f₄, hkeep, hnext, hf₄⟩ := relinked_kept hcleared.linked hcleared.stands hcleared.nodup
  have hr₄ : r.Stands f₄ p before ([] ++ target.filter inside.contains)
      (behind ++ homecomings released p) := (hf₄.children_eq p).trans (if_pos rfl)
  have hother : ∀ q, q ≠ p → f₄.children q = restocked f released q := by
    intro q hq
    rw [hf₄.children_eq, if_neg hq, hcleared.children_eq, if_neg hq]
    rfl
  have hheld : f₄.brought f₄.children target
      = target.flatMap (f.brings (restocked f released) (items.filterMap Item.node?)) := by
    refine List.flatMap_congr fun n hn => ?_
    have hparent := (hinsertable n hn).ne_parent
    unfold brings
    rw [hother n hparent, hf₄.isFragment_eq, hcleared.isFragment_eq hn hparent,
      List.filter_congr fun m hm =>
        decide_eq_decide.mpr (not_congr (hcleared.mem_target_iff hf hr hparent hm))]
  obtain ⟨f₅, hinsert, hf₅⟩ := arrange_brings [] hf₄.linked hr₄ hcleared.nodup
    (fun n hn => (hinsertable n hn).of_relinked hf₄ fun q hq => by
      rw [if_neg hq]
      exact List.Subset.refl _) rfl
  have hnone : (target.filter inside.contains).filter (· ∉ f₄.brought f₄.children target)
      = [] := by
    rw [List.filter_eq_nil_iff]
    intro n hn
    obtain ⟨htarget, hinside⟩ := List.mem_filter.mp hn
    have hmem : n ∈ f₄.children p := by
      rw [hr₄]
      simp [htarget, show n ∈ inside by simpa using hinside]
    simpa using mem_brought htarget (hf₄.linked.not_isFragment hmem) f₄.children
  rw [hheld] at hinsert hf₅ hnone
  rw [List.append_nil, hnone, ← hnext] at hinsert
  refine ⟨target, _, f₁, f₅, hfind, ?_, hf₅.linked, ?_, hcleared.nodup, rfl, ?_, ?_, ?_, ?_⟩
  · rw [reconcile_of_cleared hitems (hr.items_eq hf) hreleased hfind hremove hsend,
      bind_of_ok hkeep, bind_of_ok (get_ok f₄), bind_of_ok hinsert]
    rfl
  · refine hcleared.serves.imp fun item n hitem => ?_
    cases item with
    | text s => exact (hf₅.text?_eq n).trans ((hf₄.text?_eq n).trans hitem)
    | node m => exact hitem
  · rw [Stands, hf₅.children_eq, if_pos rfl, hnone]
    simp
  · intro q hq
    rw [hf₅.children_eq, if_neg hq, hother q hq]
  · rw [hf₅.nextId_eq, hf₄.nextId_eq]
    exact hcleared.nextId_le
  · intro n hn
    rw [hf₅.kind?_eq, hf₄.kind?_eq, hcleared.kind?_eq n hn]

end NodeRange

end LiveTemplate
