import LiveTemplate.Proofs.Range.Exactness
import LiveTemplate.Proofs.Range.Rearranged

/-!
# Giving a range what it holds

A range that is given the same contents twice in a row is edited the first time only.  The reason is
that a reconciliation finds for every item the node that serves it already.  Strings are looked up
among the texts of the range in order, so the texts that serve them are found one after another
(`nodesFor_of_serves`); instances stand for the root nodes that they stood for before, because these
are next to each other in the range (`Content.allItems_of_serves`); none of them is dropped; and a
walk through nodes that are in order meets each of them under its cursor (`arrange_same`).

Main statements: `reconcile_of_serves`, on a range that holds nodes for all items, and
`replaceContents_again`, on two calls in a row.
-/

namespace LiveTemplate

set_option autoImplicit false

open Forest

namespace NodeRange

variable {r : NodeRange} {f : Forest} {p n : NodeId} {before inside behind : List NodeId}
  {contents : List Content} {items : List Item} {target : List NodeId}

/-! ## Nodes that serve already -/

/-- The nodes that are found for items are those that serve them already, if the texts among these
are what strings may take over. -/
theorem nodesFor_of_serves {wanted : List NodeId} (h : List.Forall₂ (Serves f) items target)
    (hnodup : target.Nodup)
    (hwanted : ∀ n ∈ target, n ∈ wanted ↔ n ∈ items.filterMap Item.node?) :
    nodesFor (spareTexts f target wanted []) items f = .ok target f := by
  induction h with
  | nil => rfl
  | @cons item n items target hserves hrest ih =>
      rw [List.nodup_cons] at hnodup
      have hout : n ∉ items.filterMap Item.node? := fun hn => hnodup.1 (mem_of_serves hrest hn)
      have hrun : nodesFor (spareTexts f target wanted []) items f = .ok target f := by
        refine ih hnodup.2 fun m hm => (hwanted m (List.mem_cons_of_mem n hm)).trans ?_
        cases item with
        | text s => exact Iff.rfl
        | node k =>
            obtain rfl : n = k := hserves
            have hne : m ≠ n := fun e => hnodup.1 (e ▸ hm)
            simp [Item.node?, hne]
      cases item with
      | text s =>
          have hfree : n ∉ wanted := fun hn => hout ((hwanted n List.mem_cons_self).mp hn)
          have htext : f.text? n = some s := hserves
          have hspare : spareTexts f (n :: target) wanted []
              = n :: spareTexts f target wanted [] := by
            refine List.filter_cons_of_pos ?_
            simp [htext, hfree]
          unfold nodesFor
          rw [bind_of_ok (get_ok f), hspare, List.find?_cons_of_pos (by simp [htext])]
          show (nodesFor ((n :: spareTexts f target wanted []).erase n) items >>= fun rest =>
            pure (n :: rest)) f = _
          rw [List.erase_cons_head, bind_of_ok hrun]
          rfl
      | node k =>
          obtain rfl : n = k := hserves
          have htaken : n ∈ wanted := (hwanted n List.mem_cons_self).mpr (by simp [Item.node?])
          have hspare : spareTexts f (n :: target) wanted []
              = spareTexts f target wanted [] := by
            refine List.filter_cons_of_neg ?_
            simp [htaken]
          rw [hspare]
          show (nodesFor (spareTexts f target wanted []) items >>= fun rest =>
            pure (n :: rest)) f = _
          rw [bind_of_ok hrun]
          rfl

/-- A walk through nodes that stand in order moves none of them. -/
theorem arrange_same {done rest : List NodeId} (hf : f.Linked)
    (hr : r.Stands f p before (done ++ rest) behind) :
    r.arrange (rest ++ [r.stop]).head? rest f = .ok () f := by
  induction rest generalizing done with
  | nil => rfl
  | cons n rest ih =>
      have hcursor : (n :: rest ++ [r.stop]).head? = some n := rfl
      rw [arrange_of_met hcursor, (hr.met hf).2]
      have hr' : r.Stands f p before ((done ++ [n]) ++ rest) behind := by
        rw [Stands, hr]
        simp
      exact ih hr'

/-- Nothing happens to a range that holds nodes for all items and drops nothing. -/
theorem reconcile_of_serves {placed : List Block} (hf : f.Linked)
    (hr : r.Stands f p before target behind) (hitems : r.wanted contents f = .ok items)
    (hserves : List.Forall₂ (Serves f) items target)
    (hkept : ∀ b ∈ placed, .block b ∈ contents) :
    r.reconcile placed contents f = .ok (contents.filterMap Content.block?) f := by
  have hnodup := hr.nodup_inside hf
  have hreleased : handedBack f placed contents target (items.filterMap Item.node?) = [] :=
    handedBack_of_kept hkept
  have hremoved : (target.filter fun n => !target.contains n && !([] : List NodeId).contains n)
      = [] := by
    rw [List.filter_eq_nil_iff]
    intro n hn
    simp [hn]
  have hfind := nodesFor_of_serves hserves hnodup fun _ _ => Iff.rfl
  have hr₀ : r.Stands f p before ([] ++ target) behind := hr
  have hwalk := arrange_same hf hr₀
  have hfirst : r.arrange (target.find? target.contains) (target.filter target.contains) f
      = .ok () f := by
    have hall : target.filter (· ∈ target) = target :=
      List.filter_eq_self.mpr fun n hn => by simpa using hn
    have hstay : target.filter target.contains = target :=
      List.filter_eq_self.mpr fun n hn => by simpa using hn
    rw [arrange_find, hall, hstay, hwalk]
  have hsecond : r.arrange (f.next? r.start) target f = .ok () f := by
    rw [next?, hf.after_eq hr, head?_append_cons, hwalk]
  have hremove : r.removeAll (target.filter fun n =>
      !target.contains n && !([].flatMap fun e : Block × List NodeId => e.2).contains n) f
      = .ok () f := by
    rw [List.flatMap_nil, hremoved]
    rfl
  have hsend : sendAllHome [] f = .ok () f := rfl
  rw [reconcile_of_cleared hitems (hr.items_eq hf) hreleased hfind hremove hsend,
    bind_of_ok hfirst, bind_of_ok (get_ok f), bind_of_ok hsecond]
  rfl

/-! ## Instances that stand in the range -/

/-- Contents stand for the same items again when their instances have the same root nodes. -/
theorem allItems_of_roots {f' : Forest}
    (hblocks : ∀ b ns, .block b ∈ contents → b.roots f = .ok ns → b.roots f' = .ok ns)
    (hitems : Content.allItems f contents = .ok items) :
    Content.allItems f' contents = .ok items := by
  induction contents generalizing items with
  | nil => exact hitems
  | cons c rest ih =>
      obtain ⟨first, others, hfirst, hothers, rfl⟩ := Content.allItems_cons_eq_ok_iff.mp hitems
      refine Content.allItems_cons_eq_ok_iff.mpr ⟨first, others, ?_,
        ih (fun b ns hb => hblocks b ns (List.mem_cons_of_mem c hb)) hothers, rfl⟩
      cases c with
      | text s => exact hfirst
      | node m => exact hfirst
      | refused fault => exact nomatch hfirst
      | block b =>
          obtain ⟨ns, hns, rfl⟩ := Content.items_block_eq_ok_iff.mp hfirst
          exact Content.items_block_eq_ok_iff.mpr
            ⟨ns, hblocks b ns List.mem_cons_self hns, rfl⟩

/-- Contents of which the range holds the nodes stand for the same items again. -/
theorem allItems_of_serves {f' : Forest} (hf' : f'.Linked)
    (hr : r.Stands f' p before target behind) (hserves : List.Forall₂ (Serves f') items target)
    (hitems : Content.allItems f contents = .ok items) :
    Content.allItems f' contents = .ok items := by
  refine allItems_of_roots (fun b ns hb hns => ?_) hitems
  obtain ⟨ns', hns', hinfix⟩ := Content.roots_infix_allItems hitems hb
  obtain rfl : ns = ns' := Except.ok.inj (hns.symm.trans hns')
  exact Block.roots_eq_of_moved hns hf' ((infix_of_serves hserves hinfix).trans hr.inside_infix)

end NodeRange

/-! ## Two calls in a row -/

open NodeRange

/-- Remembering the same blocks again changes nothing. -/
theorem Session.remember_remember (s : Session) (r : NodeRange) (blocks : List Block) :
    (s.remember r blocks).remember r blocks = s.remember r blocks := by
  unfold remember
  simp

/-- A call that has returned changes nothing when it is made again at once: it returns, no node is
moved, removed, inserted or made, and not even the tally is different. -/
theorem Live.replaceContents_again {s s' : Session} {r : NodeRange} {contents : List Content}
    (hlinked : s.forest.Linked)
    (hplaced : ∀ b ∈ s.placedIn r, s.forest.isFragment b.home = true)
    (hmay : r.MayHold s.forest contents) (hrun : Live.replaceContents r contents s = .ok () s') :
    Live.replaceContents r contents s' = .ok () s' := by
  obtain ⟨items, p, before, inside, behind, held, hwanted, hr, hs', hdone⟩ :=
    reconciled_of_replaceContents hlinked hplaced hmay hrun
  obtain ⟨hitems, hnodup, hends⟩ := wanted_eq_ok_iff.mp hwanted
  have hagain : r.wanted contents s'.forest = .ok items := wanted_eq_ok_iff.mpr
    ⟨allItems_of_serves hdone.linked hdone.stands hdone.serves hitems, hnodup, hends⟩
  have hremembered : s'.placedIn r = contents.filterMap Content.block? := by
    rw [hs', Session.placedIn_remember, if_pos rfl]
  have hkept : ∀ b ∈ s'.placedIn r, .block b ∈ contents := by
    intro b hb
    rw [hremembered] at hb
    obtain ⟨c, hc, hblock⟩ := List.mem_filterMap.mp hb
    cases c <;> cases hblock
    exact hc
  have hsame : s'.remember r (contents.filterMap Content.block?) = s' := by
    generalize ({ s with forest := s'.forest } : Session) = u at hs'
    rw [hs', Session.remember_remember]
  rw [replaceContents_ok (reconcile_of_serves hdone.linked hdone.stands hagain hdone.serves hkept)]
  exact congrArg (EStateM.Result.ok ()) hsame

/-- An instance stays, a text from behind the range is given as a node while a string asks for the
same characters, and of two equal strings one takes over the text that is there: the second call
finds the same nodes again. -/
theorem Live.replaceContents_again_sampleList :
    ∃ s', Live.replaceContents ⟨2, 5⟩
        [.text "milk", .block ⟨0, 7, some (4, 4)⟩, .text "eggs", .node 6, .text "milk"] sampleList
        = .ok () s' ∧
      Live.replaceContents ⟨2, 5⟩
        [.text "milk", .block ⟨0, 7, some (4, 4)⟩, .text "eggs", .node 6, .text "milk"] s'
        = .ok () s' := by
  refine ⟨_, rfl, Live.replaceContents_again (s := sampleList) (by decide) (by decide) ?_ rfl⟩
  exact mayHold_sampleList rfl (by decide)

end LiveTemplate
