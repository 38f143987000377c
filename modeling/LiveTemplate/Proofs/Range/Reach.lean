import LiveTemplate.Proofs.Range.Displaced
import LiveTemplate.Proofs.Range.Losses

/-!
# How far an edit of a range reaches

An edit of a range is checked against the parent of the range and not against the range.  Through it
any child of the parent can be taken out, be it a sibling that stands outside or one of the two
ends, and an end can be moved like every other node.

A step that succeeds leaves all children of the parent in order, except for the node that it moves
and the one that it takes out, and the node that it moves comes to stand where the anchor has stood
(`RangeStep.Leaves`).  So everything around the range is spared exactly if the node that is taken
out is an entry of the range, and neither end is moved past the other one.

Main statement: `spares_iff_staysInside`.  A sibling and an end are taken out through a range in
`sibling_removed_through_range`.
-/

namespace LiveTemplate

set_option autoImplicit false

open Forest NodeRange RangeEdit RangeStep
open scoped List

variable {s s' : Session} {r : NodeRange} {f f' : Forest} {p n : NodeId}
  {before inside behind old new : List NodeId} {e : RangeEdit} {c : RangeStep}

/-! ## In front of one another -/

section Order

variable {α : Type} {a b : α} {front back l : List α}

/-- What an entry stands in front of. -/
theorem pair_sublist_middle (ha : a ∉ front) : [a, b] <+ front ++ a :: back ↔ b ∈ back := by
  induction front with
  | nil =>
      rw [List.nil_append, pair_sublist_cons]
      exact ⟨fun h => h.elim (fun h => h.mem (by simp)) (·.2), fun h => .inr ⟨rfl, h⟩⟩
  | cons c front ih =>
      rw [List.cons_append, pair_sublist_cons, ih fun h => ha (List.mem_cons_of_mem c h)]
      exact or_iff_left fun h => ha (h.1 ▸ List.mem_cons_self)

/-- One entry stands in front of another one if the list can be split at the two. -/
theorem pair_sublist_iff_exists :
    [a, b] <+ l ↔ ∃ front middle back, l = front ++ a :: (middle ++ b :: back) := by
  constructor
  · intro h
    obtain ⟨first, rest, rfl, ha, hb⟩ := List.cons_sublist_iff.mp h
    obtain ⟨front, behind, rfl⟩ := List.append_of_mem ha
    obtain ⟨middle, back, rfl⟩ := List.append_of_mem (List.singleton_sublist.mp hb)
    exact ⟨front, behind ++ middle, back, by simp⟩
  · rintro ⟨front, middle, back, rfl⟩
    simp

end Order

namespace NodeRange

/-- The range stands under its parent, and the nodes `others` are children of it in this order. -/
structure Spares (r : NodeRange) (f : Forest) (p : NodeId) (others : List NodeId) : Prop where
  stands : ∃ before inside behind, r.Stands f p before inside behind
  others : others <+ f.children p

theorem exists_stands_iff :
    (∃ before inside behind, r.Stands f p before inside behind)
      ↔ [r.start, r.stop] <+ f.children p :=
  pair_sublist_iff_exists.symm

/-- The siblings around a range are in order. -/
theorem Stands.around_sublist (hp : r.Stands f p before inside behind) :
    before ++ behind <+ f.children p := by
  rw [hp]
  exact (List.Sublist.refl before).append
    (((List.sublist_cons_self _ _).trans (List.sublist_append_right _ _)).cons _)

/-- A child stands around the range, in it, or is an end of it. -/
theorem Stands.mem_children_cases (hp : r.Stands f p before inside behind)
    (hn : n ∈ f.children p) :
    (n ∈ before ∨ n ∈ behind) ∨ (n = r.start ∨ n = r.stop) ∨ n ∈ inside := by
  rw [hp] at hn
  simp only [List.mem_append, List.mem_cons] at hn
  tauto

/-- A child stands in front of the start exactly if it comes before the range. -/
theorem Stands.before_start_iff (hf : f.Linked) (hp : r.Stands f p before inside behind) :
    [n, r.start] <+ f.children p ↔ n ∈ before := by
  have hnodup := hf.nodup_children p
  constructor
  · intro h
    by_contra hn
    have hmem : n ∈ f.children p := h.mem (by simp)
    have hne : r.start ≠ n := by
      rintro rfl
      exact (List.nodup_iff_sublist.mp hnodup) _ h
    have hstart : r.start ∉ before := fun hb => by
      rw [hp, List.nodup_append] at hnodup
      exact hnodup.2.2 _ hb _ (by simp) rfl
    have hbehind : [r.start, n] <+ f.children p := by
      rw [hp, pair_sublist_middle hstart]
      rw [hp, List.mem_append, List.mem_cons] at hmem
      exact (hmem.resolve_left hn).resolve_left hne.symm
    exact not_pair_sublist hnodup h hbehind
  · intro hn
    obtain ⟨front, back, rfl⟩ := List.append_of_mem hn
    exact pair_sublist_iff_exists.mpr ⟨front, back, inside ++ r.stop :: behind, by
      rw [hp, List.append_assoc, List.cons_append]⟩

/-- A child stands behind the end exactly if it comes behind the range. -/
theorem Stands.behind_stop_iff (hf : f.Linked) (hp : r.Stands f p before inside behind) :
    [r.stop, n] <+ f.children p ↔ n ∈ behind := by
  have hsplit : f.children p = (before ++ r.start :: inside) ++ r.stop :: behind := by
    rw [hp, List.append_assoc, List.cons_append]
  have hstop : r.stop ∉ before ++ r.start :: inside := fun hb => by
    have hnodup := hf.nodup_children p
    rw [hsplit, List.nodup_append] at hnodup
    exact hnodup.2.2 _ hb _ (by simp) rfl
  rw [hsplit, pair_sublist_middle hstop]

end NodeRange

/-! ## What a step leaves -/

namespace RangeStep

/-- The node that a step moves, and the child to whose place it comes. -/
def placed : RangeStep → List (NodeId × NodeId)
  | .before n anchor | .instead n anchor => [(n, anchor)]
  | .out _ => []

/-- The child that a step takes out for good. -/
def dropped : RangeStep → List NodeId
  | .before _ _ => []
  | .instead _ old => [old]
  | .out n => [n]

/-- The step moves an end of the range past the other one. -/
def Crosses (r : NodeRange) (before behind : List NodeId) (c : RangeStep) : Prop :=
  ∃ n anchor, (n, anchor) ∈ c.placed ∧
    (n = r.start ∧ anchor ∈ behind ∨ n = r.stop ∧ (anchor ∈ before ∨ anchor = r.start))

/-- What a step leaves of the children `old` of the parent, which are `new` then. -/
structure Leaves (c : RangeStep) (old new : List NodeId) : Prop where
  kept : old.filter (· ∉ c.moved ++ c.dropped) <+ new
  moved_mem : ∀ n ∈ c.moved, n ∈ new
  dropped_mem : ∀ n ∈ c.dropped, n ∈ old ∧ n ∉ new
  anchor_mem : ∀ n anchor, (n, anchor) ∈ c.placed → anchor ∈ old ∧ anchor ≠ n
  /-- The node that is moved stands in front of what its anchor has stood in front of. -/
  pair_iff : ∀ n anchor m, (n, anchor) ∈ c.placed → m ∈ new → m ≠ n →
    ([n, m] <+ new ↔ m = anchor ∨ [anchor, m] <+ old)

theorem mem_moved_iff : n ∈ c.moved ↔ ∃ anchor, (n, anchor) ∈ c.placed := by
  cases c <;> simp [moved, placed]

section Splits

variable {anchor : NodeId} {front back : List NodeId}

theorem not_mem_front (h : (front ++ anchor :: back).Nodup) : anchor ∉ front := by
  rw [List.nodup_append] at h
  exact fun hmem => h.2.2 _ hmem _ List.mem_cons_self rfl

/-- A node that comes to stand in front of its anchor. -/
theorem leaves_before (hold : (front ++ anchor :: back).Nodup) (hne : anchor ≠ n) :
    (RangeStep.before n anchor).Leaves (front ++ anchor :: back)
      (front.filter (· ≠ n) ++ n :: anchor :: back.filter (· ≠ n)) where
  kept := by
    show (front ++ anchor :: back).filter (· ∉ [n]) <+ _
    rw [filter_not_mem_singleton, List.filter_append,
      List.filter_cons_of_pos (by simpa using hne)]
    exact (List.Sublist.refl _).append (List.sublist_cons_self n _)
  moved_mem := by simp [moved]
  dropped_mem := nofun
  anchor_mem := by
    intro n' anchor' hplaced
    obtain ⟨rfl, rfl⟩ := Prod.mk.inj (List.mem_singleton.mp hplaced).symm
    exact ⟨by simp, hne⟩
  pair_iff := by
    intro n' anchor' m hplaced hm hmn
    obtain ⟨rfl, rfl⟩ := Prod.mk.inj (List.mem_singleton.mp hplaced).symm
    rw [pair_sublist_middle (by simp), pair_sublist_middle (not_mem_front hold)]
    simp [hmn]

/-- A node that comes to stand where its anchor has stood. -/
theorem leaves_instead (hold : (front ++ anchor :: back).Nodup) (hne : anchor ≠ n) :
    (RangeStep.instead n anchor).Leaves (front ++ anchor :: back)
      (front.filter (· ≠ n) ++ n :: back.filter (· ≠ n)) := by
  have hfront := not_mem_front hold
  have hback : anchor ∉ back :=
    (List.nodup_cons.mp (List.nodup_append.mp hold).2.1).1
  have hgone : anchor ∉ front.filter (· ≠ n) ++ n :: back.filter (· ≠ n) := by
    simp [hfront, hback, hne]
  refine ⟨?_, by simp [moved], ?_, ?_, ?_⟩
  · show (front ++ anchor :: back).filter (· ∉ [n] ++ [anchor]) <+ _
    rw [filter_not_mem_append, filter_not_mem_singleton, filter_not_mem_singleton,
      List.filter_append, List.filter_cons_of_pos (by simpa using hne), List.filter_append,
      List.filter_cons_of_neg (by simp),
      filter_ne_of_not_mem fun h => hfront (List.mem_of_mem_filter h),
      filter_ne_of_not_mem fun h => hback (List.mem_of_mem_filter h)]
    exact (List.Sublist.refl _).append (List.sublist_cons_self n _)
  · intro old hdropped
    obtain rfl := List.mem_singleton.mp hdropped
    exact ⟨by simp, hgone⟩
  · intro n' anchor' hplaced
    obtain ⟨rfl, rfl⟩ := Prod.mk.inj (List.mem_singleton.mp hplaced).symm
    exact ⟨by simp, hne⟩
  · intro n' anchor' m hplaced hm hmn
    obtain ⟨rfl, rfl⟩ := Prod.mk.inj (List.mem_singleton.mp hplaced).symm
    have hanchor : m ≠ anchor := fun h => hgone (h ▸ hm)
    rw [pair_sublist_middle (by simp), pair_sublist_middle hfront]
    simp [hmn, hanchor]

end Splits

theorem found_of_no_losses {anchor : NodeId}
    (h : (if anchor ≠ n ∧ anchor ∈ f.children p then [] else [n]) = []) :
    anchor ≠ n ∧ anchor ∈ f.children p := by
  by_contra hlost
  rw [if_neg hlost] at h
  exact List.cons_ne_nil n [] h

/-- A step that succeeds leaves all other children of the parent in order. -/
theorem leaves_of_done (hf : f.Linked) (hp : r.parent f = .ok p)
    (hmoved : ∀ n ∈ c.moved, n ≠ p ∧ n < f.nextId ∧ f.isFragment n = false)
    (h : c.run r f = .ok () f') : f'.Linked ∧ c.Leaves (f.children p) (f'.children p) := by
  have hfound : c.losses f p = [] := List.eq_nil_iff_forall_not_mem.mpr fun n hn => by
    rw [run_of_losses hf hp hn] at h
    exact nomatch h
  have hnodup := hf.nodup_children p
  rw [run_eq_among hp] at h
  cases c with
  | before n anchor =>
      obtain ⟨hne, hmem⟩ := found_of_no_losses hfound
      obtain ⟨hnp, hlt, hfragment⟩ := hmoved n (List.mem_singleton_self n)
      obtain ⟨front, back, hsplit⟩ := List.append_of_mem hmem
      obtain ⟨f'', hrun, hdone⟩ := relinked_insertBefore hf hsplit hne.symm hnp hlt hfragment
      obtain ⟨-, rfl⟩ := EStateM.Result.ok.inj (hrun.symm.trans h)
      rw [hdone.children_eq, if_pos rfl, hsplit]
      exact ⟨hdone.linked, leaves_before (hsplit ▸ hnodup) hne⟩
  | «instead» n anchor =>
      obtain ⟨hne, hmem⟩ := found_of_no_losses hfound
      obtain ⟨hnp, hlt, hfragment⟩ := hmoved n (List.mem_singleton_self n)
      obtain ⟨front, back, hsplit⟩ := List.append_of_mem hmem
      obtain ⟨f'', hrun, hdone⟩ :=
        relinked_replaceChild_moved hf hsplit hne.symm hnp hlt hfragment
      obtain ⟨-, rfl⟩ := EStateM.Result.ok.inj (hrun.symm.trans h)
      rw [hdone.children_eq, if_pos rfl, hsplit]
      exact ⟨hdone.linked, leaves_instead (hsplit ▸ hnodup) hne⟩
  | out n =>
      by_cases hmem : n ∈ f.children p
      · obtain ⟨f'', hrun, hdone⟩ := relinked_removeChild hf hmem
        obtain ⟨-, rfl⟩ := EStateM.Result.ok.inj (hrun.symm.trans h)
        rw [hdone.children_eq]
        refine ⟨hdone.linked, ?_, nofun, ?_, nofun, nofun⟩
        · simp [moved, dropped]
        · rintro _ hdropped
          obtain rfl := List.mem_singleton.mp hdropped
          exact ⟨hmem, by simp⟩
      · cases (removeChild_of_not_mem hf hmem).symm.trans h

namespace Leaves

variable (h : c.Leaves (f.children p) (f'.children p))

include h

/-- A step that spares what stands around the range takes an entry out of it, if anything, -/
theorem dropped_mem_inside (hp : r.Stands f p before inside behind)
    (hspares : r.Spares f' p ((before ++ behind).filter (· ∉ c.moved))) (hn : n ∈ c.dropped) :
    n ∈ inside := by
  obtain ⟨hmem, hgone⟩ := h.dropped_mem n hn
  have hmoved : n ∉ c.moved := fun hmoved => hgone (h.moved_mem n hmoved)
  rcases hp.mem_children_cases hmem with haround | hend | hinside
  · refine absurd (hspares.others.mem (List.mem_filter.mpr ⟨?_, ?_⟩)) hgone
    · exact List.mem_append.mpr haround
    · simpa using hmoved
  · have hpair := exists_stands_iff.mp hspares.stands
    refine absurd (hpair.mem ?_) hgone
    simpa using hend
  · exact hinside

/-- and moves neither end past the other one. -/
theorem not_crosses (hf : f.Linked) (hf' : f'.Linked) (hp : r.Stands f p before inside behind)
    (hpair : [r.start, r.stop] <+ f'.children p) : ¬ c.Crosses r before behind := by
  have hnodup := hf'.nodup_children p
  have hne : r.start ≠ r.stop := by
    intro heq
    rw [heq] at hpair
    exact (List.nodup_iff_sublist.mp hnodup) _ hpair
  rintro ⟨_, anchor, hplaced, ⟨rfl, hbehind⟩ | ⟨rfl, hfront⟩⟩
  · rcases (h.pair_iff _ _ _ hplaced (hpair.mem (by simp)) hne.symm).mp hpair with rfl | hin
    · have hself := (hp.behind_stop_iff hf).mpr hbehind
      exact (List.nodup_iff_sublist.mp (hf.nodup_children p)) _ hself
    · exact not_pair_sublist (hf.nodup_children p) hin ((hp.behind_stop_iff hf).mpr hbehind)
  · refine not_pair_sublist hnodup hpair
      ((h.pair_iff _ _ _ hplaced (hpair.mem (by simp)) hne).mpr ?_)
    exact hfront.symm.imp Eq.symm (hp.before_start_iff hf).mpr

/-- The siblings around the range, but for what the step moves and takes out, stay in order. -/
theorem around_sublist (hp : r.Stands f p before inside behind) {lost : List NodeId}
    (hlost : ∀ n ∈ c.dropped, n ∈ before ++ behind → n ∈ lost) :
    (before ++ behind).filter (· ∉ c.moved ++ lost) <+ f'.children p := by
  have hkept : ((before ++ behind).filter (· ∉ c.moved ++ lost)).filter
      (· ∉ c.moved ++ c.dropped) = (before ++ behind).filter (· ∉ c.moved ++ lost) := by
    refine filter_not_mem_of_disjoint fun n hn hgone => ?_
    obtain ⟨haround, hout⟩ := List.mem_filter.mp hn
    rw [decide_eq_true_eq, List.mem_append, not_or] at hout
    rcases List.mem_append.mp hgone with hmoved | hdropped
    · exact hout.1 hmoved
    · exact hout.2 (hlost n hdropped haround)
  rw [← hkept]
  exact ((List.filter_sublist.trans hp.around_sublist).filter _).trans h.kept

/-- The ends stay in order when the step takes out an entry at most and does not cross. -/
theorem ends_sublist (hf : f.Linked) (hp : r.Stands f p before inside behind)
    (hdropped : ∀ n ∈ c.dropped, n ∈ inside) (hcross : ¬ c.Crosses r before behind) :
    [r.start, r.stop] <+ f'.children p := by
  have hnodup := hf.nodup_children p
  have hends : [r.start, r.stop] <+ f.children p := exists_stands_iff.mp ⟨_, _, _, hp⟩
  have hne : r.start ≠ r.stop := by
    intro heq
    rw [heq] at hends
    exact (List.nodup_iff_sublist.mp hnodup) _ hends
  have hout : ∀ n, n = r.start ∨ n = r.stop → n ∉ c.dropped := fun n hn hmem => by
    obtain ⟨hstart, hstop, -, -⟩ := hp.ne_ends hf (hdropped n hmem)
    exact hn.elim hstart hstop
  have hmem : ∀ n, n = r.start ∨ n = r.stop → n ∈ f'.children p := by
    intro n hn
    by_cases hmoved : n ∈ c.moved
    · exact h.moved_mem n hmoved
    · refine h.kept.mem (List.mem_filter.mpr ⟨hends.mem (by simpa using hn), ?_⟩)
      simp [hmoved, hout n hn]
  have hstart := hmem _ (.inl rfl)
  have hstop := hmem _ (.inr rfl)
  by_cases hfirst : r.start ∈ c.moved
  · obtain ⟨anchor, hplaced⟩ := mem_moved_iff.mp hfirst
    obtain ⟨hanchor, hself⟩ := h.anchor_mem _ _ hplaced
    rw [h.pair_iff _ _ _ hplaced hstop hne.symm, or_iff_not_imp_left]
    intro hother
    refine (pair_sublist_or hanchor (hends.mem (by simp)) (Ne.symm hother)).resolve_right ?_
    rw [hp.behind_stop_iff hf]
    exact fun hbehind => hcross ⟨_, _, hplaced, .inl ⟨rfl, hbehind⟩⟩
  · by_cases hlast : r.stop ∈ c.moved
    · obtain ⟨anchor, hplaced⟩ := mem_moved_iff.mp hlast
      refine (pair_sublist_or hstart hstop hne).resolve_right ?_
      rw [h.pair_iff _ _ _ hplaced hstart hne, hp.before_start_iff hf]
      exact fun hpast => hcross ⟨_, _, hplaced, .inr ⟨rfl, hpast.symm.imp_right Eq.symm⟩⟩
    · refine (pair_sublist_filter.mpr ⟨hends, ?_, ?_⟩).trans h.kept
      · simp [hfirst, hout _ (.inl rfl)]
      · simp [hlast, hout _ (.inr rfl)]

/-- A step spares what stands around the range exactly if it takes nothing out but an entry, and
moves neither end past the other one. -/
theorem spares_iff (hf : f.Linked) (hf' : f'.Linked) (hp : r.Stands f p before inside behind) :
    r.Spares f' p ((before ++ behind).filter (· ∉ c.moved)) ↔
      (∀ n ∈ c.dropped, n ∈ inside) ∧ ¬ c.Crosses r before behind := by
  constructor
  · intro hspares
    exact ⟨fun n hn => h.dropped_mem_inside hp hspares hn,
      h.not_crosses hf hf' hp (exists_stands_iff.mp hspares.stands)⟩
  · rintro ⟨hdropped, hcross⟩
    refine ⟨exists_stands_iff.mpr (h.ends_sublist hf hp hdropped hcross), ?_⟩
    have hnone : ∀ n ∈ c.dropped, n ∈ before ++ behind → n ∈ ([] : List NodeId) := by
      intro n hn haround
      obtain ⟨-, -, hbefore, hbehind⟩ := hp.ne_ends hf (hdropped n hn)
      exact ((List.mem_append.mp haround).elim hbefore hbehind).elim
    have haround := h.around_sublist hp hnone
    rwa [List.append_nil] at haround

end Leaves

/-- An end that comes to an entry of the range, or in front of its stop, does not cross. -/
theorem not_crosses_of_anchor (hf : f.Linked) (hp : r.Stands f p before inside behind)
    (h : ∀ n anchor, (n, anchor) ∈ c.placed → anchor ∈ inside ∨ anchor = r.stop ∧ n ≠ r.stop) :
    ¬ c.Crosses r before behind := by
  rintro ⟨n, anchor, hplaced, hcross⟩
  rcases h n anchor hplaced with hinside | ⟨rfl, hne⟩
  · obtain ⟨hstart, -, hbefore, hbehind⟩ := hp.ne_ends hf hinside
    rcases hcross with ⟨-, hmem⟩ | ⟨-, hmem | heq⟩
    · exact hbehind hmem
    · exact hbefore hmem
    · exact hstart heq
  · rcases hcross with ⟨-, hmem⟩ | ⟨heq, -⟩
    · exact (List.nodup_iff_sublist.mp (hf.nodup_children p)) _ ((hp.behind_stop_iff hf).mpr hmem)
    · exact hne heq

end RangeStep

/-! ## What a call leaves -/

theorem mem_of_nth? {α : Type} {entries : List α} {position : Int} {a : α}
    (h : nth? entries position = some a) : a ∈ entries := by
  simp only [nth?, Option.ite_none_left_eq_some] at h
  exact List.mem_of_getElem? h.2

namespace RangeEdit

/-- A step goes by nodes that are named in its call, by entries that an index has found, or by the
end of the range. -/
theorem step_goes_by {fresh : NodeId} (h : e.step r inside fresh = .ok c) :
    (∀ n ∈ c.dropped, n ∈ e.named ∨ n ∈ inside) ∧
      ∀ n anchor, (n, anchor) ∈ c.placed →
        anchor ∈ e.named ∨ anchor ∈ inside ∨ anchor = r.stop := by
  cases e with
  | insertBefore n reference =>
      obtain rfl := Except.ok.inj h
      refine ⟨nofun, fun n' anchor hplaced => ?_⟩
      obtain ⟨-, rfl⟩ := Prod.mk.inj (List.mem_singleton.mp hplaced)
      cases reference with
      | none => exact .inr (.inr rfl)
      | some m => exact .inl (List.mem_singleton_self m)
  | remove n =>
      obtain rfl := Except.ok.inj h
      exact ⟨fun _ hn => .inl hn, nofun⟩
  | replace new old =>
      obtain rfl := Except.ok.inj h
      refine ⟨fun _ hn => .inl hn, fun n anchor hplaced => ?_⟩
      obtain ⟨-, rfl⟩ := Prod.mk.inj (List.mem_singleton.mp hplaced)
      exact .inl (List.mem_singleton_self anchor)
  | assign index v =>
      simp only [step] at h
      split at h
      · next old hfound =>
          obtain rfl := Except.ok.inj h
          have hold : old ∈ inside := by
            split at hfound
            · cases hfound
            · exact List.mem_of_getElem? hfound
          refine ⟨fun n hn => .inr (List.mem_singleton.mp hn ▸ hold), fun n anchor hplaced => ?_⟩
          obtain ⟨-, rfl⟩ := Prod.mk.inj (List.mem_singleton.mp hplaced)
          exact .inr (.inl hold)
      · split at h
        · obtain rfl := Except.ok.inj h
          refine ⟨fun _ hn => absurd hn List.not_mem_nil, fun n anchor hplaced => ?_⟩
          exact .inr (.inr (Prod.mk.inj (List.mem_singleton.mp hplaced)).2)
        · cases h
  | erase index =>
      simp only [step] at h
      split at h
      · next n hfound =>
          obtain rfl := Except.ok.inj h
          exact ⟨fun m hm => .inr (List.mem_singleton.mp hm ▸ mem_of_nth? hfound), nofun⟩
      · cases h

/-- The call reaches no further than its range: what it takes out is an entry, and it moves neither
end past the other one.  A call by an index never reaches further. -/
def StaysInside (r : NodeRange) (before inside behind : List NodeId) : RangeEdit → Prop
  | .insertBefore n (some m) =>
    ¬ (n = r.start ∧ m ∈ behind) ∧ ¬ (n = r.stop ∧ (m ∈ before ∨ m = r.start))
  | .remove n | .replace _ n => n ∈ inside
  | .insertBefore _ none | .assign .. | .erase _ => True

instance (r : NodeRange) (before inside behind : List NodeId) (e : RangeEdit) :
    Decidable (e.StaysInside r before inside behind) :=
  match e with
  | .insertBefore _ (some _) => inferInstanceAs (Decidable (_ ∧ _))
  | .remove n | .replace _ n => inferInstanceAs (Decidable (n ∈ inside))
  | .insertBefore _ none | .assign _ _ | .erase _ => inferInstanceAs (Decidable True)

/-- A call stays inside exactly if its step does. -/
theorem staysInside_iff {fresh : NodeId} (hf : f.Linked)
    (hp : r.Stands f p before inside behind) (hstep : e.step r inside fresh = .ok c)
    (hself : ∀ n anchor, (n, anchor) ∈ c.placed → anchor ≠ n) :
    e.StaysInside r before inside behind ↔
      (∀ n ∈ c.dropped, n ∈ inside) ∧ ¬ c.Crosses r before behind := by
  obtain ⟨hdropped, hanchor⟩ := step_goes_by hstep
  have hinside : (∀ n ∈ e.named, n ∈ inside) →
      (∀ n ∈ c.dropped, n ∈ inside) ∧ ¬ c.Crosses r before behind := by
    intro hnamed
    refine ⟨fun n hn => (hdropped n hn).elim (hnamed n) id, not_crosses_of_anchor hf hp ?_⟩
    intro n anchor hplaced
    rcases hanchor n anchor hplaced with hmem | hmem | rfl
    · exact .inl (hnamed anchor hmem)
    · exact .inl hmem
    · exact .inr ⟨rfl, (hself n _ hplaced).symm⟩
  cases e with
  | insertBefore n reference =>
      obtain rfl := Except.ok.inj hstep
      cases reference with
      | none => exact iff_of_true trivial (hinside nofun)
      | some m => simp [StaysInside, Crosses, placed, dropped]
  | remove n =>
      obtain rfl := Except.ok.inj hstep
      exact ⟨fun hn => hinside fun m hm => List.mem_singleton.mp hm ▸ hn,
        fun h => h.1 n (List.mem_singleton_self n)⟩
  | replace new old =>
      obtain rfl := Except.ok.inj hstep
      exact ⟨fun hold => hinside fun m hm => List.mem_singleton.mp hm ▸ hold,
        fun h => h.1 old (List.mem_singleton_self old)⟩
  | assign | erase => exact iff_of_true trivial (hinside nofun)

end RangeEdit

/-- Whatever a call is given, if it succeeds, all siblings around the range that are not named in it
stay in order.  It spares everything around the range, the ends included, exactly if it reaches no
further than the range. -/
theorem spares_iff_staysInside (hf : s.forest.Linked)
    (hp : r.Stands s.forest p before inside behind) (he : e.Proper) (hgiven : e.Given s.forest p)
    (h : e.run r s = .ok () s') :
    (before ++ behind).filter (· ∉ e.put s.forest.nextId ++ e.named) <+ s'.forest.children p ∧
    (r.Spares s'.forest p ((before ++ behind).filter (· ∉ e.put s.forest.nextId)) ↔
      e.StaysInside r before inside behind) := by
  obtain ⟨f₁, htext, hrun⟩ := run_eq hf hp he
  have hf₁ := htext.grown.linked hf
  have hp₁ : r.Stands f₁ p before inside behind := (htext.grown.views_eq p).1.trans hp
  rw [hrun] at h
  cases hstep : e.step r inside s.forest.nextId with
  | error fault =>
      rw [hstep] at h
      cases h
  | ok c =>
      rw [hstep] at h
      cases hc : c.run r f₁ with
      | error fault f' =>
          rw [attempt, Live.edit_error hc] at h
          cases h
      | ok a f' =>
          rw [attempt, Live.edit_ok hc] at h
          obtain ⟨-, rfl⟩ := EStateM.Result.ok.inj h
          obtain ⟨hf', hleaves⟩ := leaves_of_done hf₁ (hp₁.parent_eq hf₁)
            (hgiven.moved he hf hp htext hstep) hc
          rw [← moved_eq_put hstep]
          refine ⟨hleaves.around_sublist hp₁ fun n hn haround => ?_, ?_⟩
          · refine ((step_goes_by hstep).1 n hn).resolve_right fun hinside => ?_
            obtain ⟨-, -, hbefore, hbehind⟩ := hp₁.ne_ends hf₁ hinside
            exact (List.mem_append.mp haround).elim hbefore hbehind
          · rw [hleaves.spares_iff hf₁ hf' hp₁]
            exact (staysInside_iff hf₁ hp₁ hstep fun n anchor hplaced =>
              (hleaves.anchor_mem n anchor hplaced).2).symm

/-- The end of the range is moved in front of its entries, which spares the text behind the range.
The start is moved in front of that text, and the range does not stand any more. -/
theorem spares_iff_staysInside_sampleList :
    NodeRange.Stands ⟨2, 5⟩ sampleList.forest 1 [] [3, 4] [6] ∧
      (RangeEdit.insertBefore 5 (some 3)).Given sampleList.forest 1 ∧
      (RangeEdit.insertBefore 2 (some 6)).Given sampleList.forest 1 ∧
      (∃ s', RangeEdit.run ⟨2, 5⟩ (.insertBefore 5 (some 3)) sampleList = .ok () s' ∧
        NodeRange.Spares ⟨2, 5⟩ s'.forest 1 [6]) ∧
      ∃ s', RangeEdit.run ⟨2, 5⟩ (.insertBefore 2 (some 6)) sampleList = .ok () s' ∧
        ¬ NodeRange.Spares ⟨2, 5⟩ s'.forest 1 [6] := by
  have hstands : NodeRange.Stands ⟨2, 5⟩ sampleList.forest 1 [] [3, 4] [6] := rfl
  have hend : (RangeEdit.insertBefore 5 (some 3)).Given sampleList.forest 1 := by
    intro n hn
    obtain rfl : n = 5 := List.mem_singleton.mp hn
    exact ⟨by decide, by decide, rfl⟩
  have hstart : (RangeEdit.insertBefore 2 (some 6)).Given sampleList.forest 1 := by
    intro n hn
    obtain rfl : n = 2 := List.mem_singleton.mp hn
    exact ⟨by decide, by decide, rfl⟩
  have hproper : ∀ n m, (RangeEdit.insertBefore n (some m)).Proper := fun _ _ => trivial
  refine ⟨hstands, hend, hstart, ⟨_, rfl, ?_⟩, _, rfl, ?_⟩
  · exact (spares_iff_staysInside (s := sampleList) (by decide) hstands (hproper 5 3) hend
      rfl).2.mpr (by decide)
  · exact (spares_iff_staysInside (s := sampleList) (by decide) hstands (hproper 2 6) hstart
      rfl).2.not.mpr (by decide)

/-- The text behind the range is taken out through it, and so is the end of the range, which has no
parent then. -/
theorem sibling_removed_through_range :
    NodeRange.Stands ⟨2, 5⟩ sampleList.forest 1 [] [3, 4] [6] ∧
      (∃ s', RangeEdit.run ⟨2, 5⟩ (.remove 6) sampleList = .ok () s' ∧
        s'.forest.children 1 = [2, 3, 4, 5]) ∧
      ∃ s', RangeEdit.run ⟨2, 5⟩ (.remove 5) sampleList = .ok () s' ∧
        NodeRange.parent ⟨2, 5⟩ s'.forest = .error .endsApart :=
  ⟨rfl, ⟨_, rfl, rfl⟩, _, rfl, rfl⟩

end LiveTemplate
