import LiveTemplate.Proofs.Range.Reconciled
import Mathlib.Data.List.Infix

/-!
# Reconciliations that may stop on the way

Contents may ask for the very node that the range stands in.  Nothing refuses it beforehand: the
walk that inserts the contents brings what comes before that node into its place, takes the node
out of the place it stood in, and fails there.  `Rearranged` describes the forest behind a
reconciliation whether it came to its end or stopped at that node, and `reconcile_rearranged` says
that there is no third outcome.

Two kinds of facts are then read off lists of children.  Nodes that the reconciliation neither
shows nor finds in the range keep their order (`filter_children_eq`) and stay consecutive
(`infix_children`); and what surrounds the range in its list surrounds it afterwards
(`infix_refilled`).
-/

namespace LiveTemplate

set_option autoImplicit false

open Forest

/-! ## Consecutive entries -/

section Infix

variable {α : Type}

/-- Consecutive entries that avoid an entry are all in front of it or all behind it. -/
theorem infix_or_infix_of_append_cons {l front back : List α} {a : α}
    (h : l <:+: front ++ a :: back) (ha : a ∉ l) : l <:+: front ∨ l <:+: back := by
  rcases List.infix_append_iff.mp h with hfront | hback | ⟨l₁, l₂, rfl, hsuffix, hprefix⟩
  · exact .inl hfront
  · rcases List.infix_cons_iff.mp hback with hprefix | hinfix
    · rcases List.prefix_cons_iff.mp hprefix with rfl | ⟨l', rfl, -⟩
      · exact .inl List.nil_infix
      · exact absurd (List.mem_cons_self) ha
    · exact .inr hinfix
  · rcases List.prefix_cons_iff.mp hprefix with rfl | ⟨l', rfl, -⟩
    · rw [List.append_nil]
      exact .inl hsuffix.isInfix
    · exact absurd (by simp) ha

/-- What corresponds to a list in two parts is in two parts itself. -/
theorem forall₂_append_left {β : Type} {R : α → β → Prop} {l₁ l₂ : List α} {m : List β}
    (h : List.Forall₂ R (l₁ ++ l₂) m) :
    ∃ m₁ m₂, List.Forall₂ R l₁ m₁ ∧ List.Forall₂ R l₂ m₂ ∧ m = m₁ ++ m₂ := by
  induction l₁ generalizing m with
  | nil => exact ⟨[], m, .nil, h, rfl⟩
  | cons a l₁ ih =>
      obtain ⟨b, m', hab, hrest, rfl⟩ := List.forall₂_cons_left_iff.mp h
      obtain ⟨m₁, m₂, hl₁, hl₂, rfl⟩ := ih hrest
      exact ⟨b :: m₁, m₂, .cons hab hl₁, hl₂, rfl⟩

variable [DecidableEq α]

/-- Entries that are not left out stay consecutive. -/
theorem infix_filter_not_mem {l m gone : List α} (h : l <:+: m) (hkept : ∀ a ∈ l, a ∉ gone) :
    l <:+: m.filter (· ∉ gone) := by
  have hfilter := h.filter (· ∉ gone)
  rwa [filter_not_mem_of_disjoint hkept] at hfilter

/-- Nothing is left out if none of the entries is in one of two lists. -/
theorem filter_not_mem_of_apart {gone more l : List α} (h : ∀ a ∈ l, a ∉ gone)
    (h' : ∀ a ∈ l, a ∉ more) : (l.filter (· ∉ gone)).filter (· ∉ more) = l := by
  rw [filter_not_mem_of_disjoint h, filter_not_mem_of_disjoint h']

/-- Leaving out others does not change which of the marked entries there are. -/
theorem filter_mem_filter_not_mem {marked gone : List α} (h : ∀ a ∈ marked, a ∉ gone)
    (l : List α) : (l.filter (· ∉ gone)).filter (· ∈ marked) = l.filter (· ∈ marked) := by
  rw [List.filter_filter]
  refine List.filter_congr fun a _ => ?_
  by_cases ha : a ∈ marked
  · simp [ha, h a ha]
  · simp [ha]

theorem filter_mem_eq_nil {marked l : List α} (h : ∀ a ∈ marked, a ∉ l) :
    l.filter (· ∈ marked) = [] := by
  rw [List.filter_eq_nil_iff]
  intro a ha
  simpa using fun hmarked => h a hmarked ha

end Infix

namespace NodeRange

/-- A range stands in one place of its list only. -/
theorem Stands.eq_of_split {r : NodeRange} {f : Forest} {p : NodeId}
    {before inside behind front tail : List NodeId} (hf : f.Linked)
    (h : r.Stands f p before inside behind) (hsplit : f.children p = front ++ r.start :: tail) :
    before = front ∧ inside ++ r.stop :: behind = tail := by
  have hnodup := h.nodup hf
  rw [List.nodup_append, List.nodup_cons] at hnodup
  obtain ⟨hbefore, -, htail⟩ := (List.append_cons_inj_of_notMem
    (fun hmem => absurd rfl (hnodup.2.2 _ hmem _ (by simp))) hnodup.2.1.1).mp
    (h.symm.trans hsplit)
  exact ⟨hbefore, htail⟩

variable {r : NodeRange} {f f' : Forest} {p n : NodeId} {before inside behind : List NodeId}
  {placed : List Block} {contents : List Content} {items : List Item}

/-! ## The outcome -/

/-- What a reconciliation has made of the forest `f`, whether it came to its end or stopped at the
node that the range stands in.  The range holds `shown`; `lost` are the nodes that stand nowhere
any more because the walk stopped at them. -/
structure Rearranged (r : NodeRange) (f f' : Forest) (p : NodeId)
    (before inside behind : List NodeId) (items : List Item)
    (released : List (Block × List NodeId)) (shown lost : List NodeId) : Prop where
  linked : f'.Linked
  origin : ∀ n ∈ shown, n ∈ items.filterMap Item.node? ∨ n ∈ inside ∨ f.nextId ≤ n
  lost_asked : ∀ n ∈ lost, n = p ∧ n ∈ items.filterMap Item.node?
  shown_kept : ∀ n ∈ shown, n ∉ lost
  children_eq : ∀ q, f'.children q =
    ((if q = p then
      before.filter (· ∉ shown) ++ r.start :: (shown ++ r.stop :: behind.filter (· ∉ shown))
    else (f.children q).filter (· ∉ shown)) ++ homecomings released q).filter (· ∉ lost)
  nextId_le : f.nextId ≤ f'.nextId
  kind?_eq : ∀ n, n < f.nextId → f'.kind? n = f.kind? n
  /-- Nodes that are asked for one after another are shown together, or have not come in at all. -/
  together : ∀ {ns : List NodeId}, ns.map Item.node <:+: items → p ∉ ns →
    ((∀ n ∈ ns, n ∈ inside) ∨ ∀ n ∈ ns, n ∉ inside) →
      ns <:+: shown ∨ ∀ n ∈ ns, n ∉ inside ∧ n ∉ shown

/-- Nodes serve themselves, so nodes that are asked for one after another are next to each other in
the target. -/
theorem infix_of_serves {target ns : List NodeId}
    (h : List.Forall₂ (Serves f) items target) (hns : ns.map Item.node <:+: items) :
    ns <:+: target := by
  obtain ⟨front, back, rfl⟩ := hns
  obtain ⟨taken, back', hhead, -, rfl⟩ := forall₂_append_left h
  obtain ⟨front', served, -, hserved, rfl⟩ := forall₂_append_left hhead
  have hsame : List.Forall₂ (· = ·) ns served :=
    (List.forall₂_map_left_iff.mp hserved).imp fun _ _ => Eq.symm
  rw [List.forall₂_eq_eq_eq] at hsame
  exact ⟨front', back', by rw [hsame]⟩

/-- A reconciliation that came to its end has lost nothing. -/
theorem Reconciled.rearranged {released : List (Block × List NodeId)} {target : List NodeId}
    (h : Reconciled r f f' p before inside behind items released target) :
    Rearranged r f f' p before inside behind items released target [] where
  linked := h.linked
  origin := by
    intro n hn
    rcases h.origin n hn with hitem | hold | hnew
    · exact .inl hitem
    · exact .inr (.inl hold.1)
    · exact .inr (.inr hnew)
  lost_asked := nofun
  shown_kept := fun _ _ => List.not_mem_nil
  children_eq := by
    intro q
    rw [filter_not_mem_nil, h.children_eq]
  nextId_le := h.nextId_le
  kind?_eq := h.kind?_eq
  together := fun hns _ _ => .inl (infix_of_serves h.serves hns)

/-- Bringing what stays into order comes to its end; inserting the rest stops at the node that the
range stands in. -/
theorem relinked_stopped {front back stay : List NodeId} (hf : f.Linked)
    (hr : r.Stands f p before (inside.filter (· ∈ front ++ p :: back)) behind)
    (hnodup : (front ++ p :: back).Nodup) (hfree : ∀ n ∈ front, r.Movable f p n)
    (hstay : (front ++ p :: back).filter inside.contains = stay) :
    ∃ f₁ f₂, r.arrange (inside.find? (front ++ p :: back).contains) stay f = .ok () f₁ ∧
      r.arrange (f₁.next? r.start) (front ++ p :: back) f₁ = .error .insertsIntoItself f₂ ∧
      Relinked f f₂ fun q =>
        (if q = p then
          before.filter (· ∉ front) ++ r.start :: ((front ++ stay.filter (· ∉ front)) ++
            r.stop :: behind.filter (· ∉ front))
        else (f.children q).filter (· ∉ front)).filter (· ≠ p) := by
  obtain ⟨f₁, hkeep, hnext, hf₁⟩ := relinked_kept hf hr hnodup
  rw [hstay] at hkeep hnext hf₁
  have hr₁ : r.Stands f₁ p before ([] ++ stay) behind := by
    rw [Stands, hf₁.children_eq, if_pos rfl]
    rfl
  obtain ⟨f₂, hinsert, hf₂⟩ := arrange_append (p :: back) hf₁.linked hr₁
    (List.nodup_append.mp hnodup).1 fun n hn => ⟨List.not_mem_nil, (hfree n hn).of_relinked hf₁⟩
  have hr₂ : r.Stands f₂ p (before.filter (· ∉ front)) (([] ++ front) ++ stay.filter (· ∉ front))
      (behind.filter (· ∉ front)) := by
    rw [Stands, hf₂.children_eq, if_pos rfl]
  obtain ⟨f₃, hstop, hf₃⟩ := arrange_parent hf₂.linked hr₂
  refine ⟨f₁, f₃, hkeep, hnext ▸ hinsert.trans hstop, ((hf₁.trans hf₂).trans hf₃).congr fun q => ?_⟩
  by_cases hq : q = p
  · subst hq
    rw [hf₂.children_eq, if_pos rfl, if_pos rfl]
    rfl
  · rw [hf₂.children_eq, if_neg hq, if_neg hq, hf₁.children_eq, if_neg hq]

/-- A walk through a target has come to one of its nodes.  The nodes in front of that node are in
place then, and behind them is what is left of the nodes that were inside.  Of nodes that follow one
another in the target, all of them from inside or none, it has all or none. -/
theorem together_of_stopped {front back stay ns : List NodeId} {inside : List NodeId}
    (hnodup : (front ++ p :: back).Nodup)
    (hstay : (front ++ p :: back).filter inside.contains = stay)
    (hns : ns <:+: front ++ p :: back) (hp : p ∉ ns)
    (hside : (∀ n ∈ ns, n ∈ inside) ∨ ∀ n ∈ ns, n ∉ inside) :
    ns <:+: front ++ stay.filter (· ∉ front) ∨
      ∀ n ∈ ns, n ∉ inside ∧ n ∉ front ++ stay.filter (· ∉ front) := by
  rcases infix_or_infix_of_append_cons hns hp with hfront | hback
  · exact .inl (hfront.trans (List.prefix_append _ _).isInfix)
  · have hapart : ∀ n ∈ ns, n ∉ front := fun n hn h =>
      (List.nodup_append.mp hnodup).2.2 n h n (List.mem_cons_of_mem p (hback.subset hn)) rfl
    rcases hside with hin | hout
    · have hstays : ns <:+: stay := by
        have hfilter := hns.filter inside.contains
        rwa [hstay, List.filter_eq_self.mpr fun n hn => by simpa using hin n hn] at hfilter
      exact .inl ((infix_filter_not_mem hstays hapart).trans (List.suffix_append _ _).isInfix)
    · refine .inr fun n hn => ⟨hout n hn, fun hmem => ?_⟩
      rcases List.mem_append.mp hmem with hmem | hmem
      · exact hapart n hn hmem
      · rw [← hstay] at hmem
        exact hout n hn (by simpa using (List.mem_filter.mp (List.mem_of_mem_filter hmem)).2)

/-- If the node that the range stands in is asked for, the walk stops at it. -/
theorem reconcile_parent (hf : f.Linked) (hr : r.Stands f p before inside behind)
    (hitems : r.wanted contents f = .ok items)
    (hnodes : ∀ n ∈ items.filterMap Item.node?, n < f.nextId ∧ f.isFragment n = false)
    (hplaced : ∀ b ∈ placed, f.isFragment b.home = true)
    (hp : p ∈ items.filterMap Item.node?) :
    ∃ shown f', r.reconcile placed contents f = .error .insertsIntoItself f' ∧
      Rearranged r f f' p before inside behind items
        (handedBack f placed contents inside (items.filterMap Item.node?)) shown [p] := by
  obtain ⟨target, f₁, hrun, hcleared⟩ :=
    reconcile_cleared hf hr hitems (fun n hn => (hnodes n hn).1) hplaced
  generalize handedBack f placed contents inside (items.filterMap Item.node?) = released at *
  obtain ⟨front, back, rfl⟩ := List.append_of_mem (mem_of_serves hcleared.serves hp)
  have hfront : p ∉ front := fun h =>
    (List.nodup_append.mp hcleared.nodup).2.2 p h p (by simp) rfl
  have hinside : ∀ {q n}, q ≠ p → n ∈ f.children q → n ∉ inside := fun hq hn hin =>
    hq (hf.parent_unique hn (hr.mem_children hin))
  generalize hstay : (front ++ p :: back).filter inside.contains = stay
  have hstayInside : ∀ n ∈ stay.filter (· ∉ front), n ∈ inside := by
    rw [← hstay]
    exact fun n hn => by simpa using (List.mem_filter.mp (List.mem_of_mem_filter hn)).2
  obtain ⟨f₂, f₃, hkeep, hstop, hf₃⟩ := relinked_stopped hcleared.linked hcleared.stands
    hcleared.nodup (fun n hn => hcleared.movable n (by simp [hn]) (fun e => hfront (e ▸ hn))
      fun h => (hnodes n h).2) hstay
  refine ⟨front ++ stay.filter (· ∉ front), f₃, ?_,
    { linked := hf₃.linked
      origin := fun n hn => ?_
      lost_asked := fun n hn => ?_
      shown_kept := fun n hn hlost => ?_
      children_eq := fun q => ?_
      nextId_le := hf₃.nextId_eq ▸ hcleared.nextId_le
      kind?_eq := fun n hn => by rw [hf₃.kind?_eq, hcleared.kind?_eq n hn]
      together := fun hns => together_of_stopped hcleared.nodup hstay
        (infix_of_serves hcleared.serves hns) }⟩
  · rw [hrun, hstay, bind_of_ok hkeep, bind_of_ok (get_ok f₂), bind_of_error hstop]
  · rcases List.mem_append.mp hn with hn | hn
    · rcases hcleared.origin n (by simp [hn]) with hitem | hold | hnew
      · exact .inl hitem
      · exact .inr (.inl hold.1)
      · exact .inr (.inr hnew)
    · exact .inr (.inl (hstayInside n hn))
  · obtain rfl := List.mem_singleton.mp hn
    exact ⟨rfl, hp⟩
  · obtain rfl := List.mem_singleton.mp hlost
    rcases List.mem_append.mp hn with hn | hn
    · exact hfront hn
    · exact hf.ne_of_mem_children (hr.mem_children (hstayInside n hn)) rfl
  · have hout : ∀ {l : List NodeId}, (∀ n ∈ l, n ∉ inside) →
        l.filter (· ∉ front ++ stay.filter (· ∉ front)) = l.filter (· ∉ front) := by
      intro l hl
      rw [filter_not_mem_append]
      refine filter_not_mem_of_disjoint fun n hn hmem => ?_
      exact hl n (List.mem_of_mem_filter hn) (hstayInside n hmem)
    have htaken : ∀ n ∈ front, n ∈ front ++ p :: back := fun n hn => List.mem_append_left _ hn
    have hhome := hcleared.homecomings_kept htaken q
    rw [hf₃.children_eq, filter_not_mem_cons, filter_not_mem_nil]
    congr 1
    by_cases hq : q = p
    · subst hq
      rw [if_pos rfl, if_pos rfl, List.filter_append, hhome,
        hout fun n hn h => (hr.ne_ends hf h).2.2.1 hn,
        hout fun n hn h => (hr.ne_ends hf h).2.2.2 hn]
      simp
    · rw [if_neg hq, if_neg hq, hcleared.children_eq, if_neg hq, List.filter_append, hhome,
        hout fun n hn => hinside hq hn]

/-- Reconciling a standing range with accepted contents that are no fragments either succeeds or
stops at the node that the range stands in. -/
theorem reconcile_rearranged (hf : f.Linked) (hr : r.Stands f p before inside behind)
    (hitems : r.wanted contents f = .ok items)
    (hnodes : ∀ n ∈ items.filterMap Item.node?, n < f.nextId ∧ f.isFragment n = false)
    (hplaced : ∀ b ∈ placed, f.isFragment b.home = true) :
    ∃ shown lost f', (r.reconcile placed contents f = .ok (contents.filterMap Content.block?) f' ∨
        r.reconcile placed contents f = .error .insertsIntoItself f') ∧
      Rearranged r f f' p before inside behind items
        (handedBack f placed contents inside (items.filterMap Item.node?)) shown lost := by
  by_cases hp : p ∈ items.filterMap Item.node?
  · obtain ⟨shown, f', hrun, hf'⟩ := reconcile_parent hf hr hitems hnodes hplaced hp
    exact ⟨shown, [p], f', .inr hrun, hf'⟩
  · obtain ⟨target, f', hrun, hf'⟩ := reconcile_ok hf hr hitems
      (fun n hn => ⟨fun e => hp (e ▸ hn), hnodes n hn⟩) hplaced
    exact ⟨target, [], f', .inl hrun, hf'.rearranged⟩

/-! ## What a rearrangement leaves as it is -/

namespace Rearranged

variable {released : List (Block × List NodeId)} {shown lost : List NodeId} {q : NodeId}

section Views

variable (h : Rearranged r f f' p before inside behind items released shown lost)

include h

/-- The range stands with what it shows. -/
theorem stands (hf : f.Linked) (hr : r.Stands f p before inside behind) :
    r.Stands f' p ((before.filter (· ∉ shown)).filter (· ∉ lost)) shown
      ((behind.filter (· ∉ shown) ++ homecomings released p).filter (· ∉ lost)) := by
  have hends : ∀ n ∈ f.children p, n ∉ lost := fun n hn hmem =>
    hf.ne_of_mem_children hn (h.lost_asked n hmem).1
  have hstart : r.start ∉ lost := hends _ (by rw [hr]; simp)
  have hstop : r.stop ∉ lost := hends _ (by rw [hr]; simp)
  rw [Stands, h.children_eq, if_pos rfl]
  simpa [hstart, hstop] using h.shown_kept

/-- A node stands where it stood, or it is shown, or it came home. -/
theorem mem_children_cases (hn : n ∈ f'.children q) (hr : r.Stands f p before inside behind) :
    n ∈ f.children q ∨ (q = p ∧ n ∈ shown) ∨ n ∈ homecomings released q := by
  rw [h.children_eq] at hn
  rcases List.mem_append.mp (List.mem_of_mem_filter hn) with hn | hn
  · by_cases hq : q = p
    · subst hq
      rw [if_pos rfl] at hn
      rw [hr]
      simp only [List.mem_append, List.mem_cons, List.mem_filter] at hn ⊢
      tauto
    · rw [if_neg hq] at hn
      exact .inl (List.mem_of_mem_filter hn)
  · exact .inr (.inr hn)

/-- Marked nodes that the range neither held nor shows stand where they stood. -/
theorem filter_children_eq {marked : List NodeId} (hr : r.Stands f p before inside behind)
    (hin : ∀ n ∈ marked, n ∉ inside) (hshown : ∀ n ∈ marked, n ∉ shown)
    (hlost : ∀ n ∈ marked, n ∉ lost) (hback : ∀ n ∈ homecomings released q, n ∈ inside) :
    (f'.children q).filter (· ∈ marked) = (f.children q).filter (· ∈ marked) := by
  have hhome : (homecomings released q).filter (· ∈ marked) = [] :=
    filter_mem_eq_nil fun n hn hmem => hin n hn (hback n hmem)
  rw [h.children_eq, filter_mem_filter_not_mem hlost, List.filter_append, hhome, List.append_nil]
  by_cases hq : q = p
  · subst hq
    have hsplit : before ++ r.start :: (inside ++ r.stop :: behind)
        = before ++ [r.start] ++ inside ++ [r.stop] ++ behind := by simp
    have hsplit' : before.filter (· ∉ shown) ++ r.start :: (shown ++ r.stop ::
          behind.filter (· ∉ shown))
        = before.filter (· ∉ shown) ++ [r.start] ++ shown ++ [r.stop] ++
          behind.filter (· ∉ shown) := by simp
    rw [if_pos rfl, hr, hsplit, hsplit']
    simp only [List.filter_append]
    rw [filter_mem_filter_not_mem hshown, filter_mem_filter_not_mem hshown,
      filter_mem_eq_nil hin, filter_mem_eq_nil hshown]
  · rw [if_neg hq, filter_mem_filter_not_mem hshown]

/-- Consecutive nodes that are not involved stay consecutive. -/
theorem infix_children {ns : List NodeId} (hr : r.Stands f p before inside behind)
    (hns : ns <:+: f.children q) (hin : ∀ n ∈ ns, n ∉ inside) (hshown : ∀ n ∈ ns, n ∉ shown)
    (hlost : ∀ n ∈ ns, n ∉ lost) (hstart : r.start ∉ ns) (hstop : r.stop ∉ ns) :
    ns <:+: f'.children q := by
  rw [h.children_eq]
  refine infix_filter_not_mem (List.IsInfix.trans ?_ (List.prefix_append _ _).isInfix) hlost
  by_cases hq : q = p
  · subst hq
    rw [hr] at hns
    rw [if_pos rfl]
    rcases infix_or_infix_of_append_cons hns hstart with hbefore | hrest
    · exact (infix_filter_not_mem hbefore hshown).trans (List.prefix_append _ _).isInfix
    · rcases infix_or_infix_of_append_cons hrest hstop with hinside | hbehind
      · rw [List.eq_nil_iff_forall_not_mem.mpr fun n hn => hin n hn (hinside.subset hn)]
        exact List.nil_infix
      · refine (infix_filter_not_mem hbehind hshown).trans (List.IsSuffix.isInfix ?_)
        exact ⟨before.filter (· ∉ shown) ++ r.start :: shown ++ [r.stop], by simp⟩
  · rw [if_neg hq]
    exact infix_filter_not_mem hns hshown

/-- What surrounds the range in its list still surrounds it. -/
theorem infix_refilled {front back : List NodeId} (hf : f.Linked)
    (hr : r.Stands f p before inside behind)
    (hns : front ++ r.start :: (inside ++ r.stop :: back) <:+: f.children p)
    (hshown : ∀ n ∈ front ++ back, n ∉ shown) (hlost : ∀ n ∈ front ++ back, n ∉ lost) :
    front ++ r.start :: (shown ++ r.stop :: back) <:+: f'.children p := by
  obtain ⟨far, rest, hsplit⟩ := hns
  obtain ⟨rfl, htail⟩ := hr.eq_of_split hf (show f.children p = (far ++ front) ++ r.start ::
    (inside ++ r.stop :: (back ++ rest)) by simp [← hsplit])
  obtain rfl : behind = back ++ rest := by
    rw [List.append_cancel_left_eq, List.cons.injEq] at htail
    exact htail.2
  simp only [List.mem_append, or_imp, forall_and] at hshown hlost
  rw [h.stands hf hr]
  simp only [List.filter_append]
  rw [filter_not_mem_of_apart hshown.1 hlost.1, filter_not_mem_of_apart hshown.2 hlost.2]
  exact ⟨(far.filter (· ∉ shown)).filter (· ∉ lost),
    (rest.filter (· ∉ shown)).filter (· ∉ lost) ++ (homecomings released p).filter (· ∉ lost),
    by simp⟩

end Views

end Rearranged

end NodeRange

end LiveTemplate
