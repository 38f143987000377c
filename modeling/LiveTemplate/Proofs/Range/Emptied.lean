import LiveTemplate.Proofs.Range.Brought
import LiveTemplate.Proofs.Range.Repeated
import Mathlib.Algebra.Order.BigOperators.Group.List
import Mathlib.Algebra.Order.Group.Nat

/-!
# Giving a range fragments

A fragment among the contents of a range stands for what is in it (`Item.expanded`), and that is
what the range holds after the call.  But the fragment is empty by then.  The same call made again
brings in nothing for it, and what it has brought in the first time is not among the contents as
such, so it is removed.

Everything else is found again: instances stand for the same root nodes, and strings for the texts
that they have got.  So the second call leaves the range as it is exactly if the fragments had
nothing to bring in.

Main statement: `Live.replaceContents_empties_fragments`.  `fragment_lost_when_given_again` is such
a pair of calls.
-/

namespace LiveTemplate

set_option autoImplicit false

open Forest

/-! ## Items with fragments among them -/

namespace Item

/-- The item is a fragment. -/
def isFragment (f : Forest) : Item → Bool
  | .text _ => false
  | .node n => f.isFragment n

/-- What an item stands for: itself, or, if it is a fragment, the nodes in it that are not given by
themselves. -/
def expanded (f : Forest) (content : NodeId → List NodeId) (given : List NodeId) :
    Item → List Item
  | .text s => [.text s]
  | .node n => (f.brings content given n).map .node

end Item

section Lists

variable {α : Type}

/-- A list in which some entries are left out and the others stay. -/
theorem flatMap_eq_filter {l : List α} {g : α → List α} {out : α → Bool}
    (h : ∀ a ∈ l, g a = if out a then [] else [a]) : l.flatMap g = l.filter (!out ·) := by
  induction l with
  | nil => rfl
  | cons a l ih =>
      rw [List.flatMap_cons, h a List.mem_cons_self, ih fun b hb => h b (List.mem_cons_of_mem a hb)]
      cases hout : out a <;> simp [hout]

/-- When every entry that is not left out stands for one, as many are left as these exactly if the
others stand for none. -/
theorem eq_nil_of_length_flatMap {l : List α} {g : α → List α} {out : α → Bool}
    (hone : ∀ a ∈ l, out a = false → (g a).length = 1)
    (h : (l.flatMap g).length = (l.filter (!out ·)).length) :
    ∀ a ∈ l, out a = true → g a = [] := by
  rw [← flatMap_eq_filter (g := fun a => if out a then [] else [a]) fun _ _ => rfl,
    List.length_flatMap, List.length_flatMap] at h
  intro a ha hout
  by_contra hne
  refine absurd h (Nat.ne_of_gt (List.sum_lt_sum _ _ (fun b hb => ?_) ⟨a, ha, ?_⟩))
  · cases hb' : out b with
    | true => exact Nat.zero_le _
    | false => exact Nat.le_of_eq (hone b hb hb').symm
  · rw [if_pos hout]
    exact List.length_pos_iff.mpr hne

end Lists

namespace NodeRange

variable {r : NodeRange} {f f' : Forest} {p n : NodeId} {before inside behind : List NodeId}
  {placed : List Block} {contents : List Content} {items : List Item}
  {released : List (Block × List NodeId)} {target held : List NodeId}

/-- The nodes that are brought in serve what the items stand for. -/
theorem serves_expanded {content : NodeId → List NodeId} {given : List NodeId}
    (h : List.Forall₂ (Serves f') items target)
    (htext : ∀ n ∈ target, ∀ s, f'.text? n = some s → f.isFragment n = false) :
    List.Forall₂ (Serves f') (items.flatMap (Item.expanded f content given))
      (target.flatMap (f.brings content given)) := by
  induction h with
  | nil => exact .nil
  | @cons item n items target hserves _ ih =>
      rw [List.flatMap_cons, List.flatMap_cons]
      refine List.rel_append ?_ (ih fun m hm => htext m (List.mem_cons_of_mem n hm))
      cases item with
      | text s =>
          rw [brings_of_not_fragment (htext n List.mem_cons_self s hserves)]
          exact .cons hserves .nil
      | node m =>
          obtain rfl : n = m := hserves
          rw [Item.expanded, List.forall₂_map_left_iff]
          exact List.forall₂_same.mpr fun k _ => rfl

namespace Brought

/-- A text that serves an item was no fragment before. -/
theorem not_isFragment_of_text (h : Brought r f f' p before behind items released target held)
    {s : String} (htext : f'.text? n = some s) : f.isFragment n = false := by
  by_cases hlt : n < f.nextId
  · rw [← isFragment_congr (h.kind?_eq n hlt)]
    exact not_isFragment_of_text? htext
  · rw [isFragment, node?_eq_none_iff.mpr (Nat.le_of_not_lt hlt)]

/-- The range holds what its items stand for. -/
theorem serves_held (h : Brought r f f' p before behind items released target held) :
    List.Forall₂ (Serves f') (items.flatMap
      (Item.expanded f (restocked f released) (items.filterMap Item.node?))) held := by
  rw [← h.held_eq]
  exact serves_expanded h.serves fun n _ s => h.not_isFragment_of_text

/-- A fragment is empty after it has been given. -/
theorem children_eq_nil (h : Brought r f f' p before behind items released target held)
    (hf : f.Linked) (hback : ∀ q, ∀ m ∈ homecomings released q, f.isFragment m = false)
    (hn : n ∈ items.filterMap Item.node?) (hparent : n ≠ p) (hfragment : f.isFragment n = true) :
    f'.children n = [] := by
  rw [h.children_eq n hparent, List.filter_eq_nil_iff]
  intro m hm
  suffices hheld : m ∈ held by simpa using hheld
  rw [← h.held_eq, List.mem_flatMap]
  by_cases hgiven : m ∈ items.filterMap Item.node?
  · have hplain : f.isFragment m = false :=
      (List.mem_append.mp hm).elim hf.not_isFragment (hback n m)
    exact ⟨m, mem_of_serves h.serves hgiven, by simp [brings_of_not_fragment hplain]⟩
  · refine ⟨n, mem_of_serves h.serves hn, ?_⟩
    rw [brings_of_fragment hfragment, List.mem_filter]
    exact ⟨hm, by simpa using hgiven⟩

/-- After the call the contents stand for the same items. -/
theorem allItems_eq (h : Brought r f f' p before behind items released target held)
    (hf : f.Linked) (hitems : Content.allItems f contents = .ok items) :
    Content.allItems f' contents = .ok items := by
  refine allItems_of_roots (fun b ns hb hns => ?_) hitems
  rcases not_isFragment_of_roots hf hns with ⟨n, rfl⟩ | hplain
  · exact Block.roots_eq_of_single hns f'
  · obtain ⟨ns', hns', front, back, hsplit⟩ := Content.roots_infix_allItems hitems hb
    obtain rfl : ns = ns' := Except.ok.inj (hns.symm.trans hns')
    have hself : (ns.map Item.node).flatMap
        (Item.expanded f (restocked f released) (items.filterMap Item.node?))
        = ns.map Item.node := by
      rw [List.flatMap_congr (fun a ha => ?_), List.flatMap_singleton']
      obtain ⟨n, hn, rfl⟩ := List.mem_map.mp ha
      rw [Item.expanded, brings_of_not_fragment (hplain n hn)]
      rfl
    have hexpanded : ns.map Item.node <:+: items.flatMap
        (Item.expanded f (restocked f released) (items.filterMap Item.node?)) := by
      generalize Item.expanded f (restocked f released) (items.filterMap Item.node?) = expand
        at hself
      rw [← hsplit, List.flatMap_append, List.flatMap_append, hself]
      exact ⟨_, _, rfl⟩
    exact Block.roots_eq_of_moved hns h.linked
      ((infix_of_serves h.serves_held hexpanded).trans h.stands.inside_infix)

end Brought

/-! ## The second call -/

/-- After a call with fragments the contents are accepted again and may be brought in again. -/
theorem Brought.accepted (h : Brought r f f' p before behind items released target held)
    (hf : f.Linked) (hitems : r.wanted contents f = .ok items)
    (hins : ∀ n ∈ items.filterMap Item.node?, r.Insertable f p n)
    (hempty : ∀ n ∈ items.filterMap Item.node?, f.isFragment n = true → f'.children n = []) :
    r.wanted contents f' = .ok items ∧
      ∀ n ∈ items.filterMap Item.node?, r.Insertable f' p n := by
  obtain ⟨hall, hnodup, hends⟩ := wanted_eq_ok_iff.mp hitems
  refine ⟨wanted_eq_ok_iff.mpr ⟨h.allItems_eq hf hall, hnodup, hends⟩, fun n hn => ?_⟩
  have hn' := hins n hn
  refine ⟨hn'.ne_start, hn'.ne_stop, hn'.ne_parent,
    Nat.lt_of_lt_of_le hn'.lt_nextId h.nextId_le, fun hfragment => ?_⟩
  rw [isFragment_congr (h.kind?_eq n hn'.lt_nextId)] at hfragment
  rw [hempty n hn hfragment]
  exact List.not_mem_nil

/-- Once the fragments are empty, the items stand for those that are no fragments. -/
theorem expanded_eq_filter {f₁ : Forest} {given : List NodeId}
    (hkind : ∀ n ∈ items.filterMap Item.node?, f₁.isFragment n = f.isFragment n)
    (hempty : ∀ n ∈ items.filterMap Item.node?, f.isFragment n = true → f₁.children n = []) :
    items.flatMap (Item.expanded f₁ (restocked f₁ []) given)
      = items.filter (!·.isFragment f) := by
  refine flatMap_eq_filter fun item hitem => ?_
  cases item with
  | text s => rfl
  | node n =>
      have hn : n ∈ items.filterMap Item.node? := List.mem_filterMap.mpr ⟨_, hitem, rfl⟩
      by_cases hfragment : f.isFragment n = true
      · rw [Item.expanded, brings_of_fragment ((hkind n hn).trans hfragment), restocked,
          hempty n hn hfragment, Item.isFragment, if_pos hfragment]
        rfl
      · have hplain := Bool.eq_false_iff.mpr hfragment
        rw [Item.expanded, brings_of_not_fragment ((hkind n hn).trans hplain), Item.isFragment,
          if_neg hfragment]
        rfl

/-- A second call that finds the fragments empty leaves the range as it is exactly if they had
nothing to bring in before. -/
theorem Brought.held_eq_iff {f₁ f₂ g : Forest} {before₂ behind₂ target₂ held₂ : List NodeId}
    (h : Brought r f f₁ p before behind items released target held)
    (h₂ : Brought r f₁ f₂ p before₂ behind₂ items [] target₂ held₂)
    (hfind : nodesFor (spareTexts f₁ held (items.filterMap Item.node?) []) items f₁
      = .ok target₂ g)
    (hkind : ∀ n ∈ items.filterMap Item.node?, f₁.isFragment n = f.isFragment n)
    (hempty : ∀ n ∈ items.filterMap Item.node?, f.isFragment n = true → f₁.children n = []) :
    held₂ = held ↔ ∀ n ∈ items.filterMap Item.node?, f.isFragment n = true →
      f.brings (restocked f released) (items.filterMap Item.node?) n = [] := by
  constructor
  · rintro rfl n hn hfragment
    have hlength := h.serves_held.length_eq.trans h₂.serves_held.length_eq.symm
    rw [expanded_eq_filter hkind hempty] at hlength
    obtain ⟨item, hitem, hnode⟩ := List.mem_filterMap.mp hn
    obtain rfl : item = .node n := by
      cases item with
      | text s => exact nomatch hnode
      | node m => rw [Option.some.inj hnode]
    refine List.map_eq_nil_iff.mp (eq_nil_of_length_flatMap (fun item _ hplain => ?_) hlength
      (.node n) hitem hfragment)
    cases item with
    | text s => rfl
    | node m => rw [Item.expanded, brings_of_not_fragment hplain]; rfl
  · intro hnone
    have hsame : ∀ n ∈ target, f₁.isFragment n = f.isFragment n := by
      intro n hn
      rcases node_or_text_of_serves h.serves hn with hgiven | ⟨s, hs⟩
      · exact hkind n hgiven
      · rw [not_isFragment_of_text? hs, h.not_isFragment_of_text hs]
    have hgiven : ∀ n ∈ target, f.isFragment n = true → n ∈ items.filterMap Item.node? := by
      intro n hn hfragment
      refine (node_or_text_of_serves h.serves hn).resolve_right ?_
      rintro ⟨s, hs⟩
      rw [h.not_isFragment_of_text hs] at hfragment
      exact nomatch hfragment
    have hheld : held = target.filter (!f.isFragment ·) := by
      rw [← h.held_eq]
      refine flatMap_eq_filter fun n hn => ?_
      by_cases hfragment : f.isFragment n = true
      · rw [hnone n (hgiven n hn hfragment) hfragment, if_pos hfragment]
      · rw [brings_of_not_fragment (Bool.eq_false_iff.mpr hfragment), if_neg hfragment]
    have hspare : spareTexts f₁ held (items.filterMap Item.node?) []
        = spareTexts f₁ target (items.filterMap Item.node?) [] := by
      unfold spareTexts
      rw [hheld, List.filter_filter]
      refine List.filter_congr fun n hn => ?_
      cases htext : f₁.text? n with
      | none => rfl
      | some s =>
          rw [h.not_isFragment_of_text htext]
          simp
    have htarget : target₂ = target := by
      rw [hspare, nodesFor_of_serves h.serves h.nodup fun _ _ => Iff.rfl] at hfind
      exact (EStateM.Result.ok.inj hfind).1.symm
    rw [← h₂.held_eq, htarget, hheld]
    refine flatMap_eq_filter fun n hn => ?_
    by_cases hfragment : f.isFragment n = true
    · rw [brings_of_fragment ((hsame n hn).trans hfragment), restocked,
        hempty n (hgiven n hn hfragment) hfragment, if_pos hfragment]
      rfl
    · rw [brings_of_not_fragment ((hsame n hn).trans (Bool.eq_false_iff.mpr hfragment)),
        if_neg hfragment]

end NodeRange

open NodeRange

/-- A call with fragments among its contents returns, and the range holds, in order, what the
contents stand for: for every fragment what was in it, and what has come home to it, but for the
nodes that are given by themselves.  The same call made again returns as well, but the range then
holds what is left of the contents without the fragments.  So it is left as it was only if the
fragments had nothing to bring in. -/
theorem Live.replaceContents_empties_fragments {s : Session} {r : NodeRange} {p : NodeId}
    {before inside behind : List NodeId} {contents : List Content} {items : List Item}
    {released : List (Block × List NodeId)} (hlinked : s.forest.Linked)
    (hplaced : ∀ b ∈ s.placedIn r, s.forest.isFragment b.home = true)
    (hr : r.Stands s.forest p before inside behind)
    (hwanted : r.wanted contents s.forest = .ok items)
    (hins : ∀ n ∈ items.filterMap Item.node?, r.Insertable s.forest p n)
    (hreleased : handedBack s.forest (s.placedIn r) contents inside (items.filterMap Item.node?)
      = released) :
    ∃ s₁ held₁ s₂ held₂,
      Live.replaceContents r contents s = .ok () s₁ ∧ r.items s₁.forest = .ok held₁ ∧
      List.Forall₂ (Serves s₁.forest) (items.flatMap (Item.expanded s.forest
        (restocked s.forest released) (items.filterMap Item.node?))) held₁ ∧
      Live.replaceContents r contents s₁ = .ok () s₂ ∧ r.items s₂.forest = .ok held₂ ∧
      List.Forall₂ (Serves s₂.forest) (items.filter (!·.isFragment s.forest)) held₂ ∧
      (held₂ = held₁ ↔ ∀ n ∈ items.filterMap Item.node?, s.forest.isFragment n = true →
        s.forest.brings (restocked s.forest released) (items.filterMap Item.node?) n = []) := by
  obtain ⟨target, held₁, -, f₁, -, hrun, h⟩ := reconcile_brought hlinked hr hwanted hins hreleased
    (hreleased ▸ isFragment_of_handedBack hplaced)
  have hback : ∀ q, ∀ m ∈ homecomings released q, s.forest.isFragment m = false := fun q m hm =>
    hlinked.not_isFragment (hr.mem_children (mem_of_mem_homecomings (hreleased ▸ hm)))
  have hempty : ∀ n ∈ items.filterMap Item.node?, s.forest.isFragment n = true →
      f₁.children n = [] := fun n hn =>
    h.children_eq_nil hlinked hback hn (hins n hn).ne_parent
  have hkind : ∀ n ∈ items.filterMap Item.node?, f₁.isFragment n = s.forest.isFragment n :=
    fun n hn => isFragment_congr (h.kind?_eq n (hins n hn).lt_nextId)
  obtain ⟨hwanted₁, hins₁⟩ := h.accepted hlinked hwanted hins hempty
  obtain ⟨target₂, held₂, g, f₂, hfind, hrun₂, h₂⟩ :=
    reconcile_brought h.linked h.stands hwanted₁ hins₁ (handedBack_of_kept fun b hb =>
      Content.mem_blocks.mp hb) nofun
  have hremembered : (({ s with forest := f₁ } : Session).remember r
      (contents.filterMap Content.block?)).placedIn r = contents.filterMap Content.block? := by
    rw [Session.placedIn_remember, if_pos rfl]
  refine ⟨_, held₁, _, held₂, replaceContents_ok hrun, h.stands.items_eq h.linked, h.serves_held,
    replaceContents_ok (by rw [hremembered]; exact hrun₂), h₂.stands.items_eq h₂.linked, ?_,
    h.held_eq_iff h₂ hfind hkind hempty⟩
  have hserves := h₂.serves_held
  rw [expanded_eq_filter hkind hempty] at hserves
  exact hserves

/-- The fragment of the sample list is given while its item stands in the range.  The item goes home
and comes back with the fragment, and the second call takes it out. -/
theorem Live.replaceContents_empties_fragments_sampleList :
    ∃ s₁ held₁ s₂ held₂,
      Live.replaceContents ⟨2, 5⟩ [.node 7, .text "milk", .node 6] sampleList = .ok () s₁ ∧
      NodeRange.items ⟨2, 5⟩ s₁.forest = .ok held₁ ∧
      List.Forall₂ (Serves s₁.forest) [.node 4, .text "milk", .node 6] held₁ ∧
      Live.replaceContents ⟨2, 5⟩ [.node 7, .text "milk", .node 6] s₁ = .ok () s₂ ∧
      NodeRange.items ⟨2, 5⟩ s₂.forest = .ok held₂ ∧
      List.Forall₂ (Serves s₂.forest) [.text "milk", .node 6] held₂ ∧ held₂ ≠ held₁ := by
  have hstands : NodeRange.Stands ⟨2, 5⟩ sampleList.forest 1 [] [3, 4] [6] := rfl
  have hwanted : NodeRange.wanted ⟨2, 5⟩ [.node 7, .text "milk", .node 6] sampleList.forest
      = .ok [.node 7, .text "milk", .node 6] := rfl
  have hins : ∀ n ∈ [7, 6], NodeRange.Insertable ⟨2, 5⟩ sampleList.forest 1 n := by
    have hends : ∀ n ∈ [7, 6], n ≠ 2 ∧ n ≠ 5 ∧ n ≠ 1 ∧ n < sampleList.forest.nextId ∧
        1 ∉ sampleList.forest.children n := by decide
    intro n hn
    obtain ⟨hstart, hstop, hparent, hlt, hchild⟩ := hends n hn
    exact ⟨hstart, hstop, hparent, hlt, fun _ => hchild⟩
  obtain ⟨s₁, held₁, s₂, held₂, hrun, hheld, hserves, hrun₂, hheld₂, hserves₂, hsame⟩ :=
    Live.replaceContents_empties_fragments (s := sampleList) (by decide) (by decide) hstands
      hwanted hins rfl
  refine ⟨s₁, held₁, s₂, held₂, hrun, hheld, hserves, hrun₂, hheld₂, hserves₂, fun h => ?_⟩
  exact absurd (hsame.mp h 7 (by decide) rfl) (by decide)

/-- The fragment alone: what it has brought in is gone after the second call. -/
theorem fragment_lost_when_given_again :
    ∃ s₁ s₂, Live.replaceContents ⟨2, 5⟩ [.node 7] sampleList = .ok () s₁ ∧
      NodeRange.items ⟨2, 5⟩ s₁.forest = .ok [4] ∧
      Live.replaceContents ⟨2, 5⟩ [.node 7] s₁ = .ok () s₂ ∧
      NodeRange.items ⟨2, 5⟩ s₂.forest = .ok [] :=
  ⟨_, _, rfl, rfl, rfl, rfl⟩

end LiveTemplate
