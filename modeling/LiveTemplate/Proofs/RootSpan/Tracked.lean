import LiveTemplate.Proofs.Range.Rearranged

/-!
# Root nodes that stay together

An instance is made of nodes that include the ends of its ranges, its marks.  Some marks stand
among the root nodes, all others somewhere below them.  `Tracked` is the invariant that keeps the
root nodes a run of siblings whatever is put into the ranges:

* no mark stands in the list of the root nodes without being one of them, so a range of the
  instance is either a part of the run or stands in another list;
* in every list the two ends of a range are neighbours among the marks, so what a range holds is
  never a mark, and no range empties another one.

Two kinds of calls keep the invariant.  Reconciling a range of the instance replaces what the run
holds between the two ends, if these are in the run (`Tracked.own`).  Reconciling another range with
the root nodes among its items moves the run as a whole (`Tracked.given`).
-/

namespace LiveTemplate

set_option autoImplicit false

open Forest

/-! ## Lists -/

section Lists

variable {α : Type}

/-- Nothing stands between neighbours. -/
theorem eq_nil_of_pair_infix {a b : α} {front middle back : List α}
    (hnodup : (front ++ a :: (middle ++ b :: back)).Nodup)
    (h : [a, b] <:+: front ++ a :: (middle ++ b :: back)) : middle = [] := by
  obtain ⟨front', back', hsplit⟩ := h
  have hpair : front' ++ a :: (b :: back') = front ++ a :: (middle ++ b :: back) := by
    rw [← hsplit]
    simp
  rw [← hpair, List.nodup_append, List.nodup_cons] at hnodup
  obtain ⟨-, -, hrest⟩ := (List.append_cons_inj_of_notMem
    (fun hmem => hnodup.2.2 a hmem a (by simp) rfl) hnodup.2.1.1).mp hpair
  cases middle with
  | nil => rfl
  | cons m middle =>
      rw [List.cons_append, List.cons.injEq] at hrest
      have hnotin := (List.nodup_cons.mp hnodup.2.1.2).1
      exact absurd (by simp [hrest.2]) hnotin

variable [DecidableEq α]

/-- Marked entries that are all in one part of a list are found there. -/
theorem filter_mem_eq_of_run {marked l m : List α} (hnodup : m.Nodup) (h : l <:+: m)
    (hmarked : ∀ a ∈ marked, a ∈ m → a ∈ l) :
    m.filter (· ∈ marked) = l.filter (· ∈ marked) := by
  obtain ⟨front, back, rfl⟩ := h
  rw [List.append_assoc, List.nodup_append, List.nodup_append] at hnodup
  have hfront : front.filter (· ∈ marked) = [] := filter_mem_eq_nil fun a ha hmem =>
    hnodup.2.2 a hmem a (by simp [hmarked a ha (by simp [hmem])]) rfl
  have hback : back.filter (· ∈ marked) = [] := filter_mem_eq_nil fun a ha hmem =>
    hnodup.2.1.2.2 a (hmarked a ha (by simp [hmem])) a hmem rfl
  rw [List.filter_append, List.filter_append, hfront, hback, List.nil_append, List.append_nil]

end Lists

namespace NodeRange

/-- What a run of nodes becomes when the part of it between the ends of a range is replaced.  A run
without the range stays as it is. -/
def refilled (r : NodeRange) (new ns : List NodeId) : List NodeId :=
  if r.start ∈ ns then
    ns.takeWhile (· != r.start) ++ r.start :: (new ++ r.stop :: (ns.dropWhile (· != r.stop)).drop 1)
  else ns

theorem refilled_of_not_mem {r : NodeRange} {ns : List NodeId} (new : List NodeId)
    (h : r.start ∉ ns) : r.refilled new ns = ns := if_neg h

theorem refilled_append {r : NodeRange} {front old back : List NodeId} (new : List NodeId)
    (h : (front ++ r.start :: (old ++ r.stop :: back)).Nodup) :
    r.refilled new (front ++ r.start :: (old ++ r.stop :: back))
      = front ++ r.start :: (new ++ r.stop :: back) := by
  have hstart : r.start ∉ front := by
    rw [List.nodup_append] at h
    exact fun hmem => h.2.2 _ hmem _ (by simp) rfl
  have hstop : r.stop ∉ front ++ r.start :: old := by
    rw [show front ++ r.start :: (old ++ r.stop :: back)
      = (front ++ r.start :: old) ++ r.stop :: back by simp, List.nodup_append] at h
    exact fun hmem => h.2.2 _ hmem _ (by simp) rfl
  have hbefore : (front ++ r.start :: (old ++ r.stop :: back)).takeWhile (· != r.start)
      = front := by
    rw [List.takeWhile_append_of_pos fun a ha => by simpa using ne_of_mem_of_not_mem ha hstart,
      List.takeWhile_cons_of_neg (by simp), List.append_nil]
  have hbehind : (front ++ r.start :: (old ++ r.stop :: back)).dropWhile (· != r.stop)
      = r.stop :: back := by
    rw [show front ++ r.start :: (old ++ r.stop :: back)
      = (front ++ r.start :: old) ++ r.stop :: back by simp, dropWhile_ne_append hstop]
  rw [refilled, if_pos (by simp), hbefore, hbehind]
  rfl

/-- The nodes that a range holds, if it stands. -/
def content (r : NodeRange) (f : Forest) : List NodeId :=
  match r.items f with
  | .ok ns => ns
  | .error _ => []

theorem content_of_items {r : NodeRange} {f : Forest} {ns : List NodeId} (h : r.items f = .ok ns) :
    r.content f = ns := by
  unfold content
  rw [h]

theorem Stands.content_eq {r : NodeRange} {f : Forest} {p : NodeId}
    {before inside behind : List NodeId} (hf : f.Linked)
    (h : r.Stands f p before inside behind) : r.content f = inside :=
  content_of_items (h.items_eq hf)

theorem Stands.start_mem_children {r : NodeRange} {f : Forest} {p : NodeId}
    {before inside behind : List NodeId} (h : r.Stands f p before inside behind) :
    r.start ∈ f.children p := by
  rw [h]
  simp

theorem Stands.stop_mem_children {r : NodeRange} {f : Forest} {p : NodeId}
    {before inside behind : List NodeId} (h : r.Stands f p before inside behind) :
    r.stop ∈ f.children p := by
  rw [h]
  simp

/-- The ends of ranges. -/
def marks (ranges : List NodeRange) : List NodeId := ranges.flatMap fun r => [r.start, r.stop]

theorem mem_marks {ranges : List NodeRange} {n : NodeId} :
    n ∈ marks ranges ↔ ∃ r ∈ ranges, n = r.start ∨ n = r.stop := by
  simp [marks]

theorem start_mem_marks {ranges : List NodeRange} {r : NodeRange} (h : r ∈ ranges) :
    r.start ∈ marks ranges := mem_marks.mpr ⟨r, h, .inl rfl⟩

theorem stop_mem_marks {ranges : List NodeRange} {r : NodeRange} (h : r ∈ ranges) :
    r.stop ∈ marks ranges := mem_marks.mpr ⟨r, h, .inr rfl⟩

end NodeRange

open NodeRange

/-! ## The invariant -/

/-- The root nodes `ns` of an instance with the ranges `ranges` and the fragment `home` are a run of
children of `p`. -/
structure Tracked (f : Forest) (ranges : List NodeRange) (home p : NodeId)
    (ns : List NodeId) : Prop where
  run : ns <:+: f.children p
  marks_live : ∀ m ∈ marks ranges, m < f.nextId
  marks_root : ∀ m ∈ marks ranges, m ∈ f.children p → m ∈ ns
  paired : ∀ r ∈ ranges, ∀ q, r.start ∈ f.children q ∨ r.stop ∈ f.children q →
    [r.start, r.stop] <:+: (f.children q).filter (· ∈ marks ranges)
  at_home : f.children home = if p = home then ns else []

/-- What a range held before a reconciliation that came to its walks, and what it holds behind
it. -/
structure Placement (f f' : Forest) where
  range : NodeRange
  parent : NodeId
  before : List NodeId
  inside : List NodeId
  behind : List NodeId
  items : List Item
  released : List (Block × List NodeId)
  shown : List NodeId
  lost : List NodeId
  stands : range.Stands f parent before inside behind
  outcome : Rearranged range f f' parent before inside behind items released shown lost
  back_inside : ∀ q, ∀ n ∈ homecomings released q, n ∈ inside

/-- The nodes that a range was given. -/
def Placement.given {f f' : Forest} (c : Placement f f') : List NodeId :=
  c.items.filterMap Item.node?

namespace Tracked

variable {f f' : Forest} {ranges : List NodeRange} {r : NodeRange} {home p q m n : NodeId}
  {ns : List NodeId} {c : Placement f f'}

theorem nodup (h : Tracked f ranges home p ns) (hf : f.Linked) : ns.Nodup :=
  h.run.nodup (hf.nodup_children p)

/-! ## Where the ranges of the instance stand -/

section Stands

variable {before inside behind : List NodeId}

/-- A range does not hold ends of ranges of the same instance. -/
theorem mark_not_inside (h : Tracked f ranges home p ns) (hf : f.Linked) (hown : r ∈ ranges)
    (hr : r.Stands f q before inside behind) (hm : m ∈ marks ranges) : m ∉ inside := by
  have hpair := h.paired r hown q (.inl hr.start_mem_children)
  have hnodup := (hf.nodup_children q).filter (· ∈ marks ranges)
  have hsplit : (f.children q).filter (· ∈ marks ranges)
      = before.filter (· ∈ marks ranges) ++ r.start ::
        (inside.filter (· ∈ marks ranges) ++ r.stop :: behind.filter (· ∈ marks ranges)) := by
    rw [hr]
    simp [start_mem_marks hown, stop_mem_marks hown]
  rw [hsplit] at hpair hnodup
  have hnone := eq_nil_of_pair_infix hnodup hpair
  rw [List.filter_eq_nil_iff] at hnone
  exact fun hin => hnone m hin (by simpa using hm)

/-- A range with its start among the root nodes is a part of the run. -/
theorem split_of_start_mem (h : Tracked f ranges home p ns) (hf : f.Linked) (hown : r ∈ ranges)
    (hr : r.Stands f q before inside behind) (hstart : r.start ∈ ns) :
    q = p ∧ ∃ front back, ns = front ++ r.start :: (inside ++ r.stop :: back) := by
  obtain rfl : q = p := hf.parent_unique hr.start_mem_children (h.run.subset hstart)
  have hstop : r.stop ∈ ns := h.marks_root _ (stop_mem_marks hown) hr.stop_mem_children
  obtain ⟨front, tail, hsplit⟩ := List.append_of_mem hstart
  obtain ⟨far, rest, hrun⟩ := h.run
  obtain ⟨rfl, htail⟩ := hr.eq_of_split hf
    (show f.children q = (far ++ front) ++ r.start :: (tail ++ rest) by simp [← hrun, hsplit])
  have hnodup := hr.nodup hf
  simp only [List.nodup_append, List.nodup_cons] at hnodup
  obtain ⟨middle, back, rfl⟩ : ∃ middle back, tail = middle ++ r.stop :: back := by
    refine List.append_of_mem ?_
    rw [hsplit, List.mem_append, List.mem_cons] at hstop
    rcases hstop with hfront | hsame | htail
    · exact absurd rfl (hnodup.2.2 r.stop (by simp [hfront]) r.stop (by simp))
    · exact absurd (by simp [hsame]) hnodup.2.1.1
    · exact htail
  obtain ⟨rfl, -, -⟩ := (List.append_cons_inj_of_notMem
    (fun hmem => absurd rfl (hnodup.2.1.2.2.2 _ hmem _ (by simp))) hnodup.2.1.2.2.1.1).mp
    (show inside ++ r.stop :: behind = middle ++ r.stop :: (back ++ rest) by simp [htail])
  exact ⟨rfl, front, back, hsplit⟩

/-- A range with its start elsewhere stands in another list, and holds no root node. -/
theorem apart_of_start_not_mem (h : Tracked f ranges home p ns) (hf : f.Linked) (hown : r ∈ ranges)
    (hr : r.Stands f q before inside behind) (hstart : r.start ∉ ns) :
    r.stop ∉ ns ∧ ∀ n ∈ ns, n ∉ inside := by
  have hq : q ≠ p := by
    rintro rfl
    exact hstart (h.marks_root _ (start_mem_marks hown) hr.start_mem_children)
  exact ⟨fun hstop => hq (hf.parent_unique hr.stop_mem_children (h.run.subset hstop)),
    fun n hn hin => hq (hf.parent_unique (hr.mem_children hin) (h.run.subset hn))⟩

/-- The root nodes are not all inside a range of the instance. -/
theorem eq_nil_of_subset_inside (h : Tracked f ranges home p ns) (hf : f.Linked)
    (hown : r ∈ ranges) (hr : r.Stands f q before inside behind) (hin : ∀ n ∈ ns, n ∈ inside) :
    ns = [] := by
  by_cases hstart : r.start ∈ ns
  · exact absurd rfl (hr.ne_ends hf (hin _ hstart)).1
  · rw [List.eq_nil_iff_forall_not_mem]
    exact fun n hn => (h.apart_of_start_not_mem hf hown hr hstart).2 n hn (hin n hn)

/-- A range of the instance whose start has a parent stands there. -/
theorem stands_of_start_mem (h : Tracked f ranges home p ns) (hown : r ∈ ranges)
    (hstart : r.start ∈ f.children q) :
    ∃ before inside behind, r.Stands f q before inside behind := by
  have hpair : List.Sublist [r.start, r.stop] (f.children q) :=
    (h.paired r hown q (.inl hstart)).sublist.trans List.filter_sublist
  obtain ⟨left, right, hsplit, hleft, hright⟩ := List.cons_sublist_iff.mp hpair
  obtain ⟨before, near, rfl⟩ := List.append_of_mem hleft
  obtain ⟨far, behind, rfl⟩ := List.append_of_mem (List.singleton_sublist.mp hright)
  exact ⟨before, near ++ far, behind, by rw [NodeRange.Stands, hsplit]; simp⟩

/-- Refilling a range with what it holds changes nothing. -/
theorem refilled_content (h : Tracked f ranges home p ns) (hf : f.Linked) (hown : r ∈ ranges) :
    r.refilled (r.content f) ns = ns := by
  by_cases hstart : r.start ∈ ns
  · obtain ⟨before, inside, behind, hr⟩ := h.stands_of_start_mem hown (h.run.subset hstart)
    obtain ⟨-, front, back, rfl⟩ := h.split_of_start_mem hf hown hr hstart
    rw [hr.content_eq hf, refilled_append _ (h.nodup hf)]
  · exact refilled_of_not_mem _ hstart

end Stands

/-- A range that does not start at a root node does not stand in the home of the instance. -/
theorem home_ne_parent (h : Tracked f ranges home p ns) (hstart : c.range.start ∉ ns) :
    home ≠ c.parent := by
  intro hsame
  have hmem := c.stands.start_mem_children
  rw [← hsame, h.at_home] at hmem
  split at hmem
  · exact hstart hmem
  · exact nomatch hmem

/-- Behind a reconciliation of a range elsewhere the home holds what is neither shown nor lost. -/
theorem children_home (h : Tracked f ranges home p ns) (hstart : c.range.start ∉ ns)
    (hhome : homecomings c.released home = []) :
    f'.children home
      = ((if p = home then ns else []).filter (· ∉ c.shown)).filter (· ∉ c.lost) := by
  rw [c.outcome.children_eq, if_neg (h.home_ne_parent hstart), hhome, List.append_nil, h.at_home]

/-! ## Marks that stay where they are -/

theorem mark_mem_iff (hm : m ∈ marks ranges) (hsame : (f'.children q).filter (· ∈ marks ranges)
      = (f.children q).filter (· ∈ marks ranges)) :
    m ∈ f'.children q ↔ m ∈ f.children q := by
  have hboth : m ∈ (f'.children q).filter (· ∈ marks ranges)
      ↔ m ∈ (f.children q).filter (· ∈ marks ranges) := by rw [hsame]
  simpa [hm] using hboth

/-- In a list whose marks stay the same, the ends of ranges stay neighbours. -/
theorem paired_of_same (h : Tracked f ranges home p ns)
    (hsame : (f'.children q).filter (· ∈ marks ranges) = (f.children q).filter (· ∈ marks ranges))
    (hr : r ∈ ranges) (hends : r.start ∈ f'.children q ∨ r.stop ∈ f'.children q) :
    [r.start, r.stop] <:+: (f'.children q).filter (· ∈ marks ranges) := by
  rw [mark_mem_iff (start_mem_marks hr) hsame, mark_mem_iff (stop_mem_marks hr) hsame] at hends
  rw [hsame]
  exact h.paired r hr q hends

/-- Where no mark moves, only the run itself has to be looked at. -/
theorem of_same_marks (h : Tracked f ranges home p ns) (hle : f.nextId ≤ f'.nextId)
    (hsame : ∀ q, (f'.children q).filter (· ∈ marks ranges)
      = (f.children q).filter (· ∈ marks ranges)) {ns' : List NodeId}
    (hrun : ns' <:+: f'.children p) (hroots : ∀ m ∈ marks ranges, m ∈ ns → m ∈ ns')
    (hhome : f'.children home = if p = home then ns' else []) :
    Tracked f' ranges home p ns' where
  run := hrun
  marks_live := fun m hm => Nat.lt_of_lt_of_le (h.marks_live m hm) hle
  marks_root := fun m hm hchild =>
    hroots m hm (h.marks_root m hm ((mark_mem_iff hm (hsame p)).mp hchild))
  paired := fun _ hr q hends => h.paired_of_same (hsame q) hr hends
  at_home := hhome

/-- New nodes with new parents do not matter. -/
theorem grown (h : Tracked f ranges home p ns) (hhome : home < f.nextId)
    (hle : f.nextId ≤ f'.nextId) (hold : ∀ q, q < f.nextId → f'.children q = f.children q)
    (hnew : ∀ q n, f.nextId ≤ q → n ∈ f'.children q → f.nextId ≤ n) :
    Tracked f' ranges home p ns := by
  refine h.of_same_marks hle (fun q => ?_) ?_ (fun _ _ hn => hn) ?_
  · by_cases hq : q < f.nextId
    · rw [hold q hq]
    · rw [children_of_nextId_le (Nat.le_of_not_lt hq)]
      exact filter_mem_eq_nil fun m hm hmem =>
        Nat.not_le.mpr (h.marks_live m hm) (hnew q m (Nat.le_of_not_lt hq) hmem)
  · have hrun := h.run
    by_cases hp : p < f.nextId
    · rwa [hold p hp]
    · rw [children_of_nextId_le (Nat.le_of_not_lt hp)] at hrun
      rw [List.infix_nil.mp hrun]
      exact List.nil_infix
  · rw [hold home hhome]
    exact h.at_home

/-- The invariant only reads the lists of children. -/
theorem congr (h : Tracked f ranges home p ns) (hle : f.nextId ≤ f'.nextId)
    (hsame : ∀ q, f'.children q = f.children q) : Tracked f' ranges home p ns :=
  h.of_same_marks hle (fun q => by rw [hsame]) (by rw [hsame]; exact h.run) (fun _ _ hn => hn)
    (by rw [hsame]; exact h.at_home)

/-! ## New contents for a range of the instance -/

/-- A range of the instance is given new contents: no root node that is not in the range already,
no mark of another place, and nothing that makes a block come home to the instance. -/
structure Own (ranges : List NodeRange) (home : NodeId) (ns : List NodeId)
    (c : Placement f f') : Prop where
  own : c.range ∈ ranges
  roots_inside : ∀ n ∈ c.given, n ∈ ns → n ∈ c.inside
  marks_root : ∀ n ∈ c.given, n ∈ marks ranges → n ∈ ns
  home_spared : homecomings c.released home = []

namespace Own

/-- A root node that is shown was in the range before, and none is lost. -/
theorem not_shown (hc : Own ranges home ns c) (h : Tracked f ranges home p ns) (hf : f.Linked)
    (hn : n ∈ ns) (hin : n ∉ c.inside) : n ∉ c.shown := by
  intro hshown
  rcases c.outcome.origin n hshown with hitem | hold | hge
  · exact hin (hc.roots_inside n hitem hn)
  · exact hin hold
  · exact absurd (hf.lt_nextId (h.run.subset hn)) (Nat.not_lt.mpr hge)

theorem not_lost (hc : Own ranges home ns c) (hf : f.Linked) (hn : n ∈ ns) : n ∉ c.lost := by
  intro hlost
  obtain ⟨hp, hitem⟩ := c.outcome.lost_asked n hlost
  exact hf.ne_of_mem_children (c.stands.mem_children (hc.roots_inside n hitem hn)) hp

/-- New contents for a range of the instance leave all marks where they are. -/
theorem same_marks (hc : Own ranges home ns c) (h : Tracked f ranges home p ns) (hf : f.Linked)
    (q : NodeId) : (f'.children q).filter (· ∈ marks ranges)
      = (f.children q).filter (· ∈ marks ranges) := by
  have hinside : ∀ m ∈ marks ranges, m ∉ c.inside := fun m hm =>
    h.mark_not_inside hf hc.own c.stands hm
  have hgiven : ∀ m ∈ marks ranges, m ∉ c.given := fun m hm hitem =>
    hinside m hm (hc.roots_inside m hitem (hc.marks_root m hitem hm))
  refine c.outcome.filter_children_eq c.stands hinside (fun m hm hshown => ?_)
    (fun m hm hlost => hgiven m hm (c.outcome.lost_asked m hlost).2) (c.back_inside q)
  rcases c.outcome.origin m hshown with hitem | hin | hge
  · exact hgiven m hm hitem
  · exact hinside m hm hin
  · exact absurd (h.marks_live m hm) (Nat.not_lt.mpr hge)

section InRun

variable {front back : List NodeId}

/-- What surrounds a range in the run is neither shown nor lost. -/
theorem around (hc : Own ranges home ns c) (h : Tracked f ranges home p ns) (hf : f.Linked)
    (hsplit : ns = front ++ c.range.start :: (c.inside ++ c.range.stop :: back))
    (hn : n ∈ front ++ back) : n ∉ c.shown ∧ n ∉ c.lost := by
  have hnodup := hsplit ▸ h.nodup hf
  simp only [List.nodup_append, List.nodup_cons] at hnodup
  have hroot : n ∈ ns ∧ n ∉ c.inside := by
    rw [hsplit]
    rcases List.mem_append.mp hn with hn | hn
    · exact ⟨by simp [hn], fun hin => hnodup.2.2 n hn n (by simp [hin]) rfl⟩
    · exact ⟨by simp [hn], fun hin => hnodup.2.1.2.2.2 n hin n (by simp [hn]) rfl⟩
  exact ⟨hc.not_shown h hf hroot.1 hroot.2, hc.not_lost hf hroot.1⟩

/-- A run that is all of the home is so with new contents in it. -/
theorem home_of_in_run (hc : Own ranges home ns c) (h : Tracked f ranges home p ns)
    (hf : f.Linked) (hsplit : ns = front ++ c.range.start :: (c.inside ++ c.range.stop :: back))
    (hhome : c.parent = home) (hall : f.children home = ns) :
    f'.children home = front ++ c.range.start :: (c.shown ++ c.range.stop :: back) := by
  obtain ⟨hbefore, hbehind⟩ := c.stands.eq_of_split hf
    (show f.children c.parent = front ++ c.range.start :: (c.inside ++ c.range.stop :: back) by
      rw [hhome, hall, hsplit])
  rw [List.append_cancel_left_eq, List.cons.injEq] at hbehind
  have hkept : ∀ n ∈ front ++ back, n ∉ c.shown ∧ n ∉ c.lost := fun n hn =>
    hc.around h hf hsplit hn
  simp only [List.mem_append, or_imp, forall_and] at hkept
  have hstands := c.outcome.stands hf c.stands
  rwa [NodeRange.Stands, hhome, hbefore, hbehind.2, hc.home_spared, List.append_nil,
    filter_not_mem_of_apart hkept.1.1 hkept.2.1, filter_not_mem_of_apart hkept.1.2 hkept.2.2]
    at hstands

/-- A range in the run takes its new contents into the run. -/
theorem in_run (hc : Own ranges home ns c) (h : Tracked f ranges home p ns) (hf : f.Linked)
    (hstart : c.range.start ∈ ns) : Tracked f' ranges home p (c.range.refilled c.shown ns) := by
  obtain ⟨hp, front, back, hsplit⟩ := h.split_of_start_mem hf hc.own c.stands hstart
  rw [hsplit, refilled_append c.shown (hsplit ▸ h.nodup hf)]
  refine h.of_same_marks c.outcome.nextId_le (hc.same_marks h hf) ?_ (fun m hm hroot => ?_) ?_
  · exact hp ▸ c.outcome.infix_refilled hf c.stands (hp ▸ hsplit ▸ h.run)
      (fun n hn => (hc.around h hf hsplit hn).1) fun n hn => (hc.around h hf hsplit hn).2
  · have hin := h.mark_not_inside hf hc.own c.stands hm
    rw [hsplit] at hroot
    simp only [List.mem_append, List.mem_cons] at hroot ⊢
    tauto
  · by_cases hhome : p = home
    · rw [if_pos hhome]
      exact hc.home_of_in_run h hf hsplit (hp.trans hhome) (h.at_home.trans (if_pos hhome))
    · rw [if_neg hhome, c.outcome.children_eq, if_neg (by rw [hp]; exact Ne.symm hhome), h.at_home,
        if_neg hhome, hc.home_spared]
      rfl

end InRun

/-- A range elsewhere leaves the run alone. -/
theorem elsewhere (hc : Own ranges home ns c) (h : Tracked f ranges home p ns) (hf : f.Linked)
    (hstart : c.range.start ∉ ns) : Tracked f' ranges home p ns := by
  obtain ⟨hstop, hapart⟩ := h.apart_of_start_not_mem hf hc.own c.stands hstart
  have hshown : ∀ n ∈ ns, n ∉ c.shown := fun n hn => hc.not_shown h hf hn (hapart n hn)
  have hlost : ∀ n ∈ ns, n ∉ c.lost := fun n hn => hc.not_lost hf hn
  refine h.of_same_marks c.outcome.nextId_le (hc.same_marks h hf)
    (c.outcome.infix_children c.stands h.run hapart hshown hlost hstart hstop)
    (fun _ _ hn => hn) ?_
  rw [h.children_home hstart hc.home_spared]
  split
  · exact filter_not_mem_of_apart hshown hlost
  · rfl

end Own

/-- New contents for a range of the instance take the place of the old ones in the run, or leave the
run alone. -/
theorem own (h : Tracked f ranges home p ns) (hf : f.Linked) (hc : Own ranges home ns c) :
    Tracked f' ranges home p (c.range.refilled c.shown ns) := by
  by_cases hstart : c.range.start ∈ ns
  · exact hc.in_run h hf hstart
  · rw [refilled_of_not_mem c.shown hstart]
    exact hc.elsewhere h hf hstart

/-! ## The instance as contents of another range -/

/-- Another range is given the instance: it stands neither below a root node nor among marks that
are no root nodes. -/
structure Given (ranges : List NodeRange) (home : NodeId) (ns : List NodeId)
    (c : Placement f f') : Prop where
  given : ns.map Item.node <:+: c.items
  not_ends : ∀ n ∈ c.given, n ≠ c.range.start ∧ n ≠ c.range.stop
  marks_root : ∀ n ∈ c.given, n ∈ marks ranges → n ∈ ns
  parent_not_root : c.parent ∉ ns
  others_root : ∀ m ∈ marks ranges, m ∈ f.children c.parent → m ∈ ns
  home_spared : homecomings c.released home = []

namespace Given

theorem root_given (hc : Given ranges home ns c) (hn : n ∈ ns) : n ∈ c.given :=
  List.mem_filterMap.mpr ⟨.node n, hc.given.subset (List.mem_map_of_mem hn), rfl⟩

theorem start_not_root (hc : Given ranges home ns c) : c.range.start ∉ ns := fun hn =>
  (hc.not_ends _ (hc.root_given hn)).1 rfl

theorem stop_not_root (hc : Given ranges home ns c) : c.range.stop ∉ ns := fun hn =>
  (hc.not_ends _ (hc.root_given hn)).2 rfl

theorem root_not_lost (hc : Given ranges home ns c) (hn : n ∈ ns) : n ∉ c.lost := fun hlost =>
  hc.parent_not_root ((c.outcome.lost_asked n hlost).1 ▸ hn)

theorem mark_not_lost (hc : Given ranges home ns c) (hm : m ∈ marks ranges) : m ∉ c.lost := by
  intro hlost
  exact hc.root_not_lost (hc.marks_root m (c.outcome.lost_asked m hlost).2 hm) hlost

/-- A mark that the range held is a root node. -/
theorem root_of_inside (hc : Given ranges home ns c) (hm : m ∈ marks ranges)
    (hin : m ∈ c.inside) : m ∈ ns := hc.others_root m hm (c.stands.mem_children hin)

/-- A mark that the range shows is a root node. -/
theorem root_of_shown (hc : Given ranges home ns c) (h : Tracked f ranges home p ns)
    (hm : m ∈ marks ranges) (hshown : m ∈ c.shown) : m ∈ ns := by
  rcases c.outcome.origin m hshown with hitem | hin | hge
  · exact hc.marks_root m hitem hm
  · exact hc.root_of_inside hm hin
  · exact absurd (h.marks_live m hm) (Nat.not_lt.mpr hge)

/-- The root nodes are all in the range that they are given to, or none of them is. -/
theorem inside_or_not_inside (hc : Given ranges home ns c) (h : Tracked f ranges home p ns)
    (hf : f.Linked) : (∀ n ∈ ns, n ∈ c.inside) ∨ ∀ n ∈ ns, n ∉ c.inside := by
  by_cases hp : c.parent = p
  · have hrun := h.run
    rw [← hp, c.stands] at hrun
    rcases infix_or_infix_of_append_cons hrun hc.start_not_root with hbefore | hrest
    · exact .inr fun n hn hin => (c.stands.ne_ends hf hin).2.2.1 (hbefore.subset hn)
    · rcases infix_or_infix_of_append_cons hrest hc.stop_not_root with hinside | hbehind
      · exact .inl fun n hn => hinside.subset hn
      · exact .inr fun n hn hin => (c.stands.ne_ends hf hin).2.2.2 (hbehind.subset hn)
  · exact .inr fun n hn hin =>
      hp (hf.parent_unique (c.stands.mem_children hin) (h.run.subset hn))

/-- A run that has not come in stays where it is. -/
theorem left (hc : Given ranges home ns c) (h : Tracked f ranges home p ns)
    (hleft : ∀ n ∈ ns, n ∉ c.inside ∧ n ∉ c.shown) : Tracked f' ranges home p ns := by
  refine h.of_same_marks c.outcome.nextId_le (fun q => ?_) ?_ (fun _ _ hn => hn) ?_
  · exact c.outcome.filter_children_eq c.stands
      (fun m hm hin => (hleft m (hc.root_of_inside hm hin)).1 hin)
      (fun m hm hshown => (hleft m (hc.root_of_shown h hm hshown)).2 hshown)
      (fun m hm => hc.mark_not_lost hm) (c.back_inside q)
  · exact c.outcome.infix_children c.stands h.run (fun n hn => (hleft n hn).1)
      (fun n hn => (hleft n hn).2) (fun n hn => hc.root_not_lost hn) hc.start_not_root
      hc.stop_not_root
  · rw [h.children_home hc.start_not_root hc.home_spared]
    split
    · exact filter_not_mem_of_apart (fun n hn => (hleft n hn).2) fun n hn => hc.root_not_lost hn
    · rfl

/-- A run that is shown is a run of the children of its new parent. -/
theorem run_of_shown (hf : f.Linked) (hshown : ns <:+: c.shown) : ns <:+: f'.children c.parent := by
  rw [c.outcome.stands hf c.stands]
  refine hshown.trans (List.IsInfix.trans ?_ (List.suffix_append _ _).isInfix)
  exact (List.prefix_append _ _).isInfix.trans (List.suffix_cons _ _).isInfix

/-- With the run in it, the list that the range stands in has no other marks. -/
theorem root_of_child (hc : Given ranges home ns c) (h : Tracked f ranges home p ns)
    (hm : m ∈ marks ranges) (hchild : m ∈ f'.children c.parent) : m ∈ ns := by
  rcases c.outcome.mem_children_cases hchild c.stands with hold | ⟨-, hshown⟩ | hcame
  · exact hc.others_root m hm hold
  · exact hc.root_of_shown h hm hshown
  · exact hc.root_of_inside hm (c.back_inside c.parent m hcame)

/-- Elsewhere no mark has come in. -/
theorem old_child (hc : Given ranges home ns c) (hf : f.Linked) (hshown : ns <:+: c.shown)
    (hm : m ∈ marks ranges) (hq : q ≠ c.parent) (hchild : m ∈ f'.children q) :
    m ∈ f.children q := by
  rcases c.outcome.mem_children_cases hchild c.stands with hold | ⟨hp, -⟩ | hcame
  · exact hold
  · exact absurd hp hq
  · have hroot := hc.root_of_inside hm (c.back_inside q m hcame)
    exact absurd (c.outcome.linked.parent_unique hchild ((run_of_shown hf hshown).subset hroot)) hq

/-- A list that the run has neither left nor come to has the marks that it had. -/
theorem same_marks (hc : Given ranges home ns c) (h : Tracked f ranges home p ns) (hf : f.Linked)
    (hshown : ns <:+: c.shown) (hq : q ≠ c.parent) (hp : q ≠ p) :
    (f'.children q).filter (· ∈ marks ranges) = (f.children q).filter (· ∈ marks ranges) := by
  generalize hhere : (f.children q).filter (· ∈ marks ranges) = here
  have hmem : ∀ m, m ∈ here ↔ m ∈ f.children q ∧ m ∈ marks ranges := by
    intro m
    rw [← hhere]
    simp
  have hroot : ∀ m ∈ here, m ∉ ns := fun m hm hn =>
    hp (hf.parent_unique ((hmem m).mp hm).1 (h.run.subset hn))
  calc (f'.children q).filter (· ∈ marks ranges)
      = (f'.children q).filter (· ∈ here) := by
        refine List.filter_congr fun m hm => ?_
        rw [decide_eq_decide, hmem]
        exact ⟨fun hmark => ⟨hc.old_child hf hshown hmark hq hm, hmark⟩, fun hm => hm.2⟩
    _ = (f.children q).filter (· ∈ here) :=
        c.outcome.filter_children_eq c.stands
          (fun m hm hin => hroot m hm (hc.root_of_inside ((hmem m).mp hm).2 hin))
          (fun m hm hin => hroot m hm (hc.root_of_shown h ((hmem m).mp hm).2 hin))
          (fun m hm => hc.mark_not_lost ((hmem m).mp hm).2) (c.back_inside q)
    _ = here := by
        rw [← hhere]
        refine List.filter_congr fun m hm => ?_
        simp [hm]

/-- A run that has come in stands in the list of the range, and its marks have come with it. -/
theorem taken (hc : Given ranges home ns c) (h : Tracked f ranges home p ns) (hf : f.Linked)
    (hshown : ns <:+: c.shown) : Tracked f' ranges home c.parent ns where
  run := run_of_shown hf hshown
  marks_live := fun m hm => Nat.lt_of_lt_of_le (h.marks_live m hm) c.outcome.nextId_le
  marks_root := fun m hm hchild => hc.root_of_child h hm hchild
  paired := by
    intro r hr q hends
    by_cases hq : q = c.parent
    · subst hq
      have hroots : r.start ∈ f.children p ∨ r.stop ∈ f.children p :=
        hends.imp (fun hchild => h.run.subset (hc.root_of_child h (start_mem_marks hr) hchild))
          fun hchild => h.run.subset (hc.root_of_child h (stop_mem_marks hr) hchild)
      rw [filter_mem_eq_of_run (c.outcome.linked.nodup_children c.parent) (run_of_shown hf hshown)
        fun m hm hchild => hc.root_of_child h hm hchild,
        ← filter_mem_eq_of_run (hf.nodup_children p) h.run h.marks_root]
      exact h.paired r hr p hroots
    · have hp : q ≠ p := by
        rintro rfl
        have hstill : ∀ m ∈ marks ranges, m ∉ f'.children q := fun m hm hchild =>
          hq (c.outcome.linked.parent_unique hchild ((run_of_shown hf hshown).subset
            (h.marks_root m hm (hc.old_child hf hshown hm hq hchild))))
        exact hends.elim (hstill _ (start_mem_marks hr)) (hstill _ (stop_mem_marks hr))
      exact h.paired_of_same (hc.same_marks h hf hshown hq hp) hr hends
  at_home := by
    have hgone : ns.filter (· ∉ c.shown) = [] := by
      rw [List.filter_eq_nil_iff]
      intro n hn
      simpa using hshown.subset hn
    rw [h.children_home hc.start_not_root hc.home_spared,
      if_neg (Ne.symm (h.home_ne_parent hc.start_not_root))]
    split
    · rw [hgone]
      rfl
    · rfl

end Given

/-- Another range that is given the instance takes the run in as a whole, or leaves it alone. -/
theorem given (h : Tracked f ranges home p ns) (hf : f.Linked) (hc : Given ranges home ns c) :
    ∃ p', Tracked f' ranges home p' ns := by
  rcases c.outcome.together hc.given hc.parent_not_root (hc.inside_or_not_inside h hf) with
    hshown | hleft
  · exact ⟨c.parent, hc.taken h hf hshown⟩
  · exact ⟨p, hc.left h hleft⟩

end Tracked

end LiveTemplate
