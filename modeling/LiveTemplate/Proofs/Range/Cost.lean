import LiveTemplate.Proofs.Range.Displaced
import LiveTemplate.Proofs.Range.Exactness
import Mathlib.Algebra.BigOperators.Group.Finset.Basic

/-!
# What a call costs

A call that gives a range new contents edits no more than its one greedy pass needs, and `Tallied`
says how much that is.  It removes every node that is neither kept nor handed back, moves every node
that goes home, inserts every node that was not in the range, and moves the nodes of the range that
come in front of one they stood behind (`displaced`).  At least one of the nodes that are kept stays
where it is, and all do if they are in order already.

Strings take over the texts of the range one for one, so texts are made for those that are left over
(`nodesFor_counts`): for every string as many as it occurs more often than there are free texts with
its characters.

Main statements: `reconcile_counts` and `tallied_of_replaceContents`.
-/

namespace LiveTemplate

set_option autoImplicit false

open Forest

/-! ## Strings among contents -/

/-- The string that a content is. -/
def Content.string? : Content → Option String
  | .text s => some s
  | _ => none

/-- The string of an item that has one. -/
def Item.string? : Item → Option String
  | .text s => some s
  | .node _ => none

/-- The strings among the items are those among the contents. -/
theorem Content.strings_of_allItems {f : Forest} {contents : List Content} {items : List Item}
    (h : Content.allItems f contents = .ok items) :
    items.filterMap Item.string? = contents.filterMap Content.string? := by
  induction contents generalizing items with
  | nil =>
      cases h
      rfl
  | cons c rest ih =>
      obtain ⟨first, others, hfirst, hothers, rfl⟩ := Content.allItems_cons_eq_ok_iff.mp h
      rw [List.filterMap_append, ih hothers]
      cases c with
      | text s =>
          cases hfirst
          rfl
      | node n =>
          cases hfirst
          rfl
      | refused fault => exact nomatch hfirst
      | block b =>
          obtain ⟨ns, -, rfl⟩ := Content.items_block_eq_ok_iff.mp hfirst
          have hnone : (ns.map Item.node).filterMap Item.string? = [] := by
            simp [List.filterMap_map, Function.comp_def, Item.string?]
          rw [hnone]
          rfl

/-- What is left of a list when the entries of another one are taken from it, counted entry by
entry. -/
theorem length_diff_eq_sum {α : Type} [DecidableEq α] (l taken : List α) :
    (l.diff taken).length = ∑ a ∈ l.toFinset, (l.count a - taken.count a) := by
  have hsub : ∀ a ∈ (l.diff taken : Multiset α), a ∈ l.toFinset := fun a ha =>
    List.mem_toFinset.mpr ((List.diff_sublist l taken).subset ha)
  rw [← Multiset.coe_card, ← Multiset.sum_count_eq_card hsub]
  refine Finset.sum_congr rfl fun a _ => ?_
  rw [Multiset.coe_count, List.count_diff]

namespace NodeRange

variable {r : NodeRange} {f f' : Forest} {p : NodeId} {items : List Item} {target : List NodeId}

/-! ## Texts that are made -/

/-- Taking over the first text with some characters takes these from the texts that are free. -/
theorem texts_erase {spare : List NodeId} {s : String} {n : NodeId}
    (h : spare.find? (fun n => f.text? n == some s) = some n) :
    (spare.erase n).filterMap f.text? = (spare.filterMap f.text?).erase s := by
  induction spare with
  | nil => exact nomatch h
  | cons m spare ih =>
      by_cases hm : f.text? m = some s
      · rw [List.find?_cons_of_pos (by simpa using hm)] at h
        obtain rfl : m = n := Option.some.inj h
        rw [List.erase_cons_head, List.filterMap_cons_some hm, List.erase_cons_head]
      · rw [List.find?_cons_of_neg (by simpa using hm)] at h
        have hne : m ≠ n := by
          rintro rfl
          exact hm (by simpa using List.find?_some h)
        rw [List.erase_cons_tail (by simpa using hne)]
        cases htext : f.text? m with
        | none => rw [List.filterMap_cons_none htext, List.filterMap_cons_none htext, ih h]
        | some t =>
            have hts : t ≠ s := fun e => hm (e ▸ htext)
            rw [List.filterMap_cons_some htext, List.filterMap_cons_some htext, ih h,
              List.erase_cons_tail (by simpa using hts)]

/-- Finding nodes for items makes a text for every string that is left over. -/
theorem nodesFor_counts {spare : List NodeId} (hlt : ∀ n ∈ spare, n < f.nextId)
    (hrun : nodesFor spare items f = .ok target f') :
    f'.tally = f.tally.plus 0
      ((items.filterMap Item.string?).diff (spare.filterMap f.text?)).length := by
  induction items generalizing f spare target with
  | nil =>
      cases hrun
      rw [List.filterMap_nil, List.nil_diff]
      rfl
  | cons item items ih =>
      cases item with
      | node m =>
          obtain ⟨rest, f₁, hrest, hdone⟩ := exists_of_bind_ok
            (x := nodesFor spare items) (g := fun rest => pure (m :: rest)) hrun
          cases hdone
          exact ih hlt hrest
      | text s =>
          rw [List.filterMap_cons_some (f := Item.string?) (b := s) rfl]
          unfold nodesFor at hrun
          rw [bind_of_ok (get_ok f)] at hrun
          cases hfind : spare.find? (fun n => f.text? n == some s) with
          | some m =>
              rw [hfind] at hrun
              obtain ⟨rest, f₁, hrest, hdone⟩ := exists_of_bind_ok hrun
              cases hdone
              have hfree : s ∈ spare.filterMap f.text? := List.mem_filterMap.mpr
                ⟨m, List.mem_of_find?_eq_some hfind, by simpa using List.find?_some hfind⟩
              rw [List.cons_diff_of_mem hfree, ← texts_erase hfind]
              exact ih (fun n hn => hlt n (List.mem_of_mem_erase hn)) hrest
          | none =>
              rw [hfind] at hrun
              obtain ⟨n, f₁, hgrow, hrun⟩ := exists_of_bind_ok hrun
              obtain ⟨rest, f₂, hrest, hdone⟩ := exists_of_bind_ok hrun
              cases hdone
              obtain ⟨f₁', hgrow', hgrown, -, -⟩ := growText_ok f s
              obtain ⟨rfl, rfl⟩ : n = f.nextId ∧ f₁ = f₁' := by
                rw [hgrow] at hgrow'
                cases hgrow'
                exact ⟨rfl, rfl⟩
              have hfree : s ∉ spare.filterMap f.text? := by
                rw [List.mem_filterMap]
                rintro ⟨m, hm, htext⟩
                exact absurd htext (by simpa using List.find?_eq_none.mp hfind m hm)
              have hsame : spare.filterMap f₁.text? = spare.filterMap f.text? :=
                List.filterMap_congr fun m hm => hgrown.text?_eq (hlt m hm)
              rw [ih (fun m hm => Nat.lt_of_lt_of_le (hlt m hm) hgrown.nextId_le) hrest,
                Edit.counts_growText s f _ f₁ hgrow, hsame, List.cons_diff_of_not_mem hfree,
                List.length_cons, Tally.plus_plus, Nat.add_comm 1]

/-! ## Passes over the range -/

theorem counts_removeAll (r : NodeRange) (ns : List NodeId) :
    Edit.Counts (r.removeAll ns) ns.length 0 := by
  induction ns with
  | nil => exact Edit.counts_pure ()
  | cons n ns ih =>
      have hremove : Edit.Counts (r.remove n) 1 0 :=
        (Edit.counts_look _).bind_zero fun p => Edit.counts_removeChild p n
      rw [List.length_cons, Nat.add_comm]
      exact hremove.bind_mutations fun _ => ih

theorem counts_sendHome (home : NodeId) (ns : List NodeId) :
    Edit.Counts (sendHome home ns) ns.length 0 := by
  induction ns with
  | nil => exact Edit.counts_pure ()
  | cons n ns ih =>
      rw [List.length_cons, Nat.add_comm]
      exact (Edit.counts_insertBefore home n none).bind_mutations fun _ => ih

theorem counts_sendAllHome (released : List (Block × List NodeId)) :
    Edit.Counts (sendAllHome released) (released.flatMap (·.2)).length 0 := by
  induction released with
  | nil => exact Edit.counts_pure ()
  | cons e released ih =>
      rw [List.flatMap_cons, List.length_append]
      exact (counts_sendHome e.1.home e.2).bind_mutations fun _ => ih

/-! ## The whole call -/

section Whole

variable {before inside behind : List NodeId} {placed : List Block} {contents : List Content}
  {released : List (Block × List NodeId)}

/-- The first half of a reconciliation counts the texts that are made, and the nodes that are
removed or go home. -/
theorem cleared_counts {spare gone : List NodeId} {f₁ f₂ f₃ : Forest}
    (hspare : ∀ n ∈ spare, n < f.nextId) (hfind : nodesFor spare items f = .ok target f₁)
    (hremove : r.removeAll gone f₁ = .ok () f₂) (hsend : sendAllHome released f₂ = .ok () f₃) :
    f₃.tally = f.tally.plus (gone.length + (released.flatMap (·.2)).length)
      ((items.filterMap Item.string?).diff (spare.filterMap f.text?)).length := by
  rw [counts_sendAllHome released _ _ _ hsend, counts_removeAll r gone _ _ _ hremove,
    nodesFor_counts hspare hfind]
  simp

/-- The two walks count the nodes that are new in the range and those that change places. -/
theorem ordered_counts {f₁ f₂ : Forest} (hf : f.Linked)
    (hr : r.Stands f p before (inside.filter (· ∈ target)) behind) (hinside : inside.Nodup)
    (hnodup : target.Nodup) (hfree : ∀ n ∈ target, r.Movable f p n)
    (hkeep : r.arrange (inside.find? target.contains) (target.filter inside.contains) f = .ok () f₁)
    (hinsert : r.arrange (f₁.next? r.start) target f₁ = .ok () f₂) :
    f₂.tally = f.tally.plus
      ((displaced inside target).length + (target.filter (· ∉ inside)).length) 0 := by
  have hstay : target.filter inside.contains = target.filter (· ∈ inside) :=
    List.filter_congr fun n _ => by simp
  have hfree' : ∀ n ∈ target.filter (· ∈ inside), n ∉ ([] : List NodeId) ∧ r.Movable f p n :=
    fun n hn => ⟨List.not_mem_nil, hfree n (List.mem_of_mem_filter hn)⟩
  obtain ⟨f₁', hkeep', hnext, hf₁⟩ := relinked_kept hf hr hnodup
  rw [hkeep] at hkeep'
  cases hkeep'
  have hr₀ : r.Stands f p before ([] ++ inside.filter (· ∈ target)) behind := hr
  have hr₁ : r.Stands f₁ p before ([] ++ target.filter (· ∈ inside)) behind := by
    rw [Stands, hf₁.children_eq, if_pos rfl, hstay]
    rfl
  rw [arrange_find, hstay] at hkeep
  rw [hnext, hstay] at hinsert
  have hfirst := arrange_counts hf hr₀ (hnodup.filter _) hfree' hkeep
  have hsecond := arrange_counts hf₁.linked hr₁ hnodup
    (fun n hn => ⟨List.not_mem_nil, (hfree n hn).of_relinked hf₁⟩) hinsert
  rw [hsecond, hfirst, misplaced_kept hinside hnodup, misplaced_all hnodup, Tally.plus_plus]

/-- What a call has counted between the forests `f` and `f'`: `inside` is what the range held,
`given` are the nodes that were given to it, as themselves or as root nodes of instances, `strings`
are the strings, `released` the instances that went home, and `held` is what the range holds now. -/
structure Tallied (f f' : Forest) (inside given : List NodeId) (strings : List String)
    (released : List (Block × List NodeId)) (held : List NodeId) : Prop where
  mutations_eq : f'.tally.mutations = f.tally.mutations +
    ((inside.filter fun n => n ∉ held ∧ n ∉ released.flatMap (·.2)).length +
      (released.flatMap (·.2)).length + (held.filter (· ∉ inside)).length +
      (displaced inside held).length)
  displaced_kept : displaced inside held ⊆ inside.filter (· ∈ held)
  length_displaced : (displaced inside held).length ≤ (inside.filter (· ∈ held)).length - 1
  displaced_eq_nil : (displaced inside held).length = 0 ↔
    inside.filter (· ∈ held) = held.filter (· ∈ inside)
  texts_eq : f'.tally.texts = f.tally.texts + ∑ s ∈ strings.toFinset, (strings.count s -
    (inside.filter fun n =>
      f.text? n = some s ∧ n ∉ given ∧ n ∉ released.flatMap (·.2)).length)

/-- The free texts with some characters. -/
theorem count_spareTexts (f : Forest) (inside given leaving : List NodeId) (s : String) :
    ((spareTexts f inside given leaving).filterMap f.text?).count s
      = (inside.filter fun n => f.text? n = some s ∧ n ∉ given ∧ n ∉ leaving).length := by
  rw [List.count_filterMap, spareTexts, List.countP_filter, List.countP_eq_length_filter]
  congr 1
  refine List.filter_congr fun n _ => ?_
  by_cases htext : f.text? n = some s
  · simp [htext]
  · simp [htext]

/-- Reconciling a standing range with contents that it may hold costs what `Tallied` says. -/
theorem reconcile_counts (hf : f.Linked) (hr : r.Stands f p before inside behind)
    (hitems : r.wanted contents f = .ok items)
    (hnodes : ∀ n ∈ items.filterMap Item.node?,
      n ≠ p ∧ n < f.nextId ∧ f.isFragment n = false)
    (hplaced : ∀ b ∈ placed, f.isFragment b.home = true)
    (hreleased : handedBack f placed contents inside (items.filterMap Item.node?) = released) :
    ∃ target f', r.reconcile placed contents f = .ok (contents.filterMap Content.block?) f' ∧
      Reconciled r f f' p before inside behind items released target ∧
      Tallied f f' inside (items.filterMap Item.node?) (items.filterMap Item.string?) released
        target := by
  obtain ⟨target, f₁, f₂, f₃, hfind, hremove, hsend, hcleared⟩ :=
    cleared_ok hf hr hitems (fun n hn => (hnodes n hn).2.1) hreleased
      (hreleased ▸ isFragment_of_handedBack hplaced)
  have hfree := hcleared.movable_of_may hf hr hnodes
  obtain ⟨f₄, f₅, hkeep, hinsert, hf₅⟩ :=
    relinked_ordered hcleared.linked hcleared.stands hcleared.nodup hfree
  have hinside := hr.nodup_inside hf
  have hspare : ∀ n ∈ spareTexts f inside (items.filterMap Item.node?)
      (released.flatMap (·.2)), n < f.nextId :=
    fun n hn => hf.lt_nextId (hr.mem_children (mem_spareTexts.mp hn).1)
  have hgone : (inside.filter fun n =>
      !target.contains n && !(released.flatMap (·.2)).contains n)
      = inside.filter fun n => n ∉ target ∧ n ∉ released.flatMap (·.2) :=
    List.filter_congr fun n _ => by simp
  have htally := ordered_counts hcleared.linked hcleared.stands hinside hcleared.nodup hfree hkeep
    hinsert
  rw [cleared_counts hspare hfind hremove hsend, hgone, Tally.plus_plus] at htally
  refine ⟨target, f₅, ?_, hcleared.reconciled hf₅, {
    mutations_eq := ?_
    displaced_kept := displaced_subset inside target
    length_displaced := length_displaced_le hcleared.nodup
    displaced_eq_nil := ?_
    texts_eq := ?_ }⟩
  · rw [reconcile_of_cleared hitems (hr.items_eq hf) hreleased hfind hremove hsend,
      bind_of_ok hkeep, bind_of_ok (get_ok f₄), bind_of_ok hinsert]
    rfl
  · rw [htally, Tally.mutations_plus]
    omega
  · rw [List.length_eq_zero_iff]
    exact displaced_eq_nil_iff hinside hcleared.nodup
  · rw [htally, Tally.texts_plus, Nat.add_zero, length_diff_eq_sum]
    simp only [count_spareTexts]

end Whole

end NodeRange

open NodeRange

/-- A call that returns has cost what `Tallied` says of the contents and of what the range held and
holds. -/
theorem Live.tallied_of_replaceContents {s s' : Session} {r : NodeRange} {contents : List Content}
    (hlinked : s.forest.Linked)
    (hplaced : ∀ b ∈ s.placedIn r, s.forest.isFragment b.home = true)
    (hmay : r.MayHold s.forest contents) (hrun : Live.replaceContents r contents s = .ok () s') :
    ∃ items inside held, Content.allItems s.forest contents = .ok items ∧
      r.items s.forest = .ok inside ∧ r.items s'.forest = .ok held ∧
      Tallied s.forest s'.forest inside (items.filterMap Item.node?)
        (contents.filterMap Content.string?)
        (handedBack s.forest (s.placedIn r) contents inside (items.filterMap Item.node?)) held := by
  obtain ⟨blocks, f, hreconcile, rfl⟩ := replaceContents_eq_ok hrun
  obtain ⟨items, p, before, inside, behind, hwanted, hr⟩ :=
    accepted_of_reconcile hlinked hreconcile
  have hitems := (wanted_eq_ok_iff.mp hwanted).1
  obtain ⟨held, f', hrun', hdone, htallied⟩ := reconcile_counts hlinked hr hwanted
    (hmay.ne_parent hlinked hr hitems) hplaced rfl
  rw [hreconcile] at hrun'
  cases hrun'
  rw [Content.strings_of_allItems hitems] at htallied
  exact ⟨items, inside, held, hitems, hr.items_eq hlinked,
    hdone.stands.items_eq hdone.linked, htallied⟩

/-- The text and the element of the range change places, a second string of the same characters
needs a text of its own, and the text behind the range is moved into it: three mutations and one
text. -/
theorem Live.tallied_of_replaceContents_sampleList :
    ∃ s', Live.replaceContents ⟨2, 5⟩ [.node 4, .text "milk", .text "milk", .node 6] sampleList
        = .ok () s' ∧ s'.forest.tally = { mutations := 3, texts := 1 } ∧
      ∃ items inside held,
        Content.allItems sampleList.forest [.node 4, .text "milk", .text "milk", .node 6]
          = .ok items ∧
        NodeRange.items ⟨2, 5⟩ sampleList.forest = .ok inside ∧
        NodeRange.items ⟨2, 5⟩ s'.forest = .ok held ∧
        Tallied sampleList.forest s'.forest inside (items.filterMap Item.node?) ["milk", "milk"]
          (handedBack sampleList.forest (sampleList.placedIn ⟨2, 5⟩)
            [.node 4, .text "milk", .text "milk", .node 6] inside (items.filterMap Item.node?))
          held :=
  ⟨_, rfl, rfl, Live.tallied_of_replaceContents (s := sampleList) (by decide) (by decide)
    (mayHold_sampleList rfl (by decide)) rfl⟩

end LiveTemplate
