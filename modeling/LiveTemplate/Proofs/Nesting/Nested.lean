import LiveTemplate.Proofs.Nesting.Placing
import LiveTemplate.Proofs.Session.Calls
import LiveTemplate.Session.Instance

/-!
# Sessions of nested instances

`Nested s L` says that the layout `L` describes the session `s`: the forest lists the children that
the layout computes, the blocks of the instances begin and end with their skeletons, and every range
remembers at least the instances that it holds.  What a range remembers may be more: an instance
that another range has taken away is still remembered by the range it was taken from.

In such a session every instance can be walked from its first root to its last (`roots_eq`), and
every range stands (`stands`).  A session without instances is nested (`nested_of_blank`), and so
is one to which an instance has been added (`Nested.create`).
-/

namespace LiveTemplate

set_option autoImplicit false

open Forest

/-! ## Views of sessions -/

/-- A range of one of the instances. -/
def Session.HasRange (s : Session) (r : NodeRange) : Prop :=
  ∃ i, i < s.instances.size ∧ .range r ∈ (s.instanceAt i).sites

/-- The layout describes the session. -/
structure Nested (s : Session) (L : Layout) : Prop where
  coherent : L.Coherent
  linked : s.forest.Linked
  lists : L.Lists s.forest.children
  block_owner : ∀ {i : InstanceId}, i < s.instances.size → (s.instanceAt i).block.owner = i
  block_home : ∀ {i : InstanceId}, i < s.instances.size →
    s.forest.isFragment (s.instanceAt i).block.home = true
  block_ends : ∀ {i : InstanceId}, i < s.instances.size →
    (s.instanceAt i).block.ends = Block.endsOf (L.skeleton (s.instanceAt i).block.home)
  home_unique : ∀ {i j : InstanceId}, i < s.instances.size → j < s.instances.size →
    (s.instanceAt i).block.home = (s.instanceAt j).block.home → i = j
  held_home : ∀ {m home : NodeId}, .nest home ∈ L.held m →
    ∃ i, i < s.instances.size ∧ (s.instanceAt i).block.home = home
  held_range : ∀ {m : NodeId}, L.held m ≠ [] → ∃ r, s.HasRange r ∧ r.start = m
  range_skeleton : ∀ {r : NodeRange}, s.HasRange r →
    ∃ n front back, L.skeleton n = front ++ r.start :: r.stop :: back
  range_text : ∀ {r : NodeRange}, s.HasRange r → s.forest.text? r.start = none
  range_apart : ∀ {r r' : NodeRange}, s.HasRange r → s.HasRange r' →
    r.start ≠ r'.stop ∧ (r.start = r'.start → r = r')
  placed_block : ∀ {r : NodeRange} {b : Block}, b ∈ s.placedIn r →
    ∃ i, i < s.instances.size ∧ b = (s.instanceAt i).block
  held_placed : ∀ {r : NodeRange} {home : NodeId}, s.HasRange r → .nest home ∈ L.held r.start →
    ∃ b ∈ s.placedIn r, b.home = home

/-- Two sessions with the same links, the same blocks and parts of instances, and the same blocks
remembered. -/
structure Session.Alike (s s' : Session) : Prop where
  children : ∀ n, s'.forest.children n = s.forest.children n
  isFragment : ∀ n, s'.forest.isFragment n = s.forest.isFragment n
  text? : ∀ n, s'.forest.text? n = s.forest.text? n
  size : s'.instances.size = s.instances.size
  block : ∀ i, (s'.instanceAt i).block = (s.instanceAt i).block
  parts : ∀ i, (s'.instanceAt i).parts = (s.instanceAt i).parts
  placedIn : ∀ r, s'.placedIn r = s.placedIn r

theorem Session.Alike.hasRange_iff {s s' : Session} (h : s.Alike s') {r : NodeRange} :
    s'.HasRange r ↔ s.HasRange r := by
  unfold Session.HasRange
  simp only [h.size, Instance.sites, h.parts]

namespace Nested

variable {s : Session} {L : Layout} {r : NodeRange} {b : Block} {n x : NodeId}

section Views

variable (h : Nested s L)

include h

/-! ## What the layout says about the forest -/

theorem lt_nextId (hx : x ∈ L.span n) : x < s.forest.nextId := by
  obtain ⟨p, hp⟩ := h.lists.span_infix n
  exact h.linked.lt_nextId (hp.subset hx)

theorem not_isFragment (hx : x ∈ L.span n) : s.forest.isFragment x = false := by
  obtain ⟨p, hp⟩ := h.lists.span_infix n
  exact h.linked.not_isFragment (hp.subset hx)

theorem skeleton_lt (hx : x ∈ L.skeleton n) : n < s.forest.nextId := by
  have hspan := h.coherent.mem_span_of_mem_skeleton hx
  by_cases hheld : L.Held n
  · obtain ⟨m, hm⟩ := hheld
    obtain ⟨i, hi, rfl⟩ := h.held_home hm
    exact lt_nextId_of_isFragment (h.block_home hi)
  · rw [← h.lists.of_not_held hheld] at hspan
    exact lt_nextId_of_mem_children hspan

theorem span_eq_nil (hn : s.forest.nextId ≤ n) : L.span n = [] := by
  rw [h.coherent.span_eq_nil_iff, List.eq_nil_iff_forall_not_mem]
  exact fun x hx => absurd (h.skeleton_lt hx) (Nat.not_lt.mpr hn)

theorem held_eq_nil (hn : s.forest.nextId ≤ n) : L.held n = [] := by
  by_contra hne
  obtain ⟨m, hm⟩ := h.coherent.mem_skeleton_of_held_ne_nil hne
  exact absurd (h.lt_nextId (h.coherent.mem_span_of_mem_skeleton hm)) (Nat.not_lt.mpr hn)

theorem nest_lt {m home : NodeId} (hm : .nest home ∈ L.held m) : home < s.forest.nextId := by
  obtain ⟨i, hi, rfl⟩ := h.held_home hm
  exact lt_nextId_of_isFragment (h.block_home hi)

theorem text_lt {m : NodeId} (hm : .text x ∈ L.held m) : x < s.forest.nextId := by
  obtain ⟨n, hn⟩ := h.coherent.mem_skeleton_of_held_ne_nil (List.ne_nil_of_mem hm)
  have hgap : x ∈ L.gap m := Layout.mem_gap.mpr (.inl hm)
  exact h.lt_nextId (h.coherent.gap_subset_span (h.coherent.mem_span_of_mem_skeleton hn) hgap)

/-- The span begins and ends with the first and the last node of the skeleton. -/
theorem endsOf_span (n : NodeId) : Block.endsOf (L.span n) = Block.endsOf (L.skeleton n) := by
  rcases List.eq_nil_or_concat (L.skeleton n) with hskeleton | ⟨front, last, hskeleton⟩
  · rw [hskeleton, h.coherent.span_eq_nil_iff.mpr hskeleton]
  · rw [List.concat_eq_append] at hskeleton
    refine Block.endsOf_congr ?_ ?_
    · rw [h.coherent.span_eq, hskeleton]
      cases front <;> rfl
    · rw [h.coherent.span_eq, hskeleton, List.flatMap_append, List.flatMap_cons,
        h.coherent.gap_of_last hskeleton]
      simp

/-- Every instance can be walked, and the walk meets its span. -/
theorem roots_eq (hb : ∃ i, i < s.instances.size ∧ b = (s.instanceAt i).block) :
    b.roots s.forest = .ok (L.span b.home) := by
  obtain ⟨i, hi, rfl⟩ := hb
  obtain ⟨p, hp⟩ := h.lists.span_infix (s.instanceAt i).block.home
  exact Block.roots_eq_of_run h.linked hp ((h.block_ends hi).trans (h.endsOf_span _).symm)

/-- Every range stands and holds its gap. -/
theorem stands (hr : s.HasRange r) :
    ∃ p before behind, r.Stands s.forest p before (L.gap r.start) behind := by
  obtain ⟨n, front, back, hskeleton⟩ := h.range_skeleton hr
  have hstop : L.gap r.stop = [] := by
    apply Layout.gap_of_held_eq_nil
    by_contra hne
    obtain ⟨r', hr', hstart⟩ := h.held_range hne
    exact (h.range_apart hr' hr).1 hstart
  obtain ⟨p, before, behind, hp⟩ := h.lists.span_infix n
  rw [h.coherent.span_eq, hskeleton, List.flatMap_append, List.flatMap_cons, List.flatMap_cons,
    hstop] at hp
  refine ⟨p, before ++ front.flatMap (fun m => m :: L.gap m),
    back.flatMap (fun m => m :: L.gap m) ++ behind, ?_⟩
  rw [NodeRange.Stands, ← hp]
  simp

theorem items_eq (hr : s.HasRange r) : r.items s.forest = .ok (L.gap r.start) := by
  obtain ⟨p, before, behind, hstands⟩ := h.stands hr
  exact hstands.items_eq h.linked

/-! ## Calls that move no nodes -/

/-- Sessions that are alike have the same layout. -/
theorem of_alike {s' : Session} (hlinked : s'.forest.Linked) (hs : s.Alike s') :
    Nested s' L where
  coherent := h.coherent
  linked := hlinked
  lists := by
    rw [funext hs.children]
    exact h.lists
  block_owner := by
    intro i hi
    rw [hs.block, h.block_owner (hs.size ▸ hi)]
  block_home := by
    intro i hi
    rw [hs.block, hs.isFragment, h.block_home (hs.size ▸ hi)]
  block_ends := by
    intro i hi
    rw [hs.block, h.block_ends (hs.size ▸ hi)]
  home_unique := by
    intro i j hi hj hhome
    rw [hs.block, hs.block] at hhome
    exact h.home_unique (hs.size ▸ hi) (hs.size ▸ hj) hhome
  held_home := by
    intro m home hm
    obtain ⟨i, hi, hhome⟩ := h.held_home hm
    exact ⟨i, hs.size ▸ hi, by rw [hs.block, hhome]⟩
  held_range := by
    intro m hm
    obtain ⟨r, hr, hstart⟩ := h.held_range hm
    exact ⟨r, hs.hasRange_iff.mpr hr, hstart⟩
  range_skeleton := fun hr => h.range_skeleton (hs.hasRange_iff.mp hr)
  range_text := by
    intro r hr
    rw [hs.text?, h.range_text (hs.hasRange_iff.mp hr)]
  range_apart := fun hr hr' => h.range_apart (hs.hasRange_iff.mp hr) (hs.hasRange_iff.mp hr')
  placed_block := by
    intro r b hb
    rw [hs.placedIn] at hb
    obtain ⟨i, hi, rfl⟩ := h.placed_block hb
    exact ⟨i, hs.size ▸ hi, (hs.block i).symm⟩
  held_placed := by
    intro r home hr hheld
    rw [hs.placedIn]
    exact h.held_placed (hs.hasRange_iff.mp hr) hheld

end Views

end Nested

/-! ## Sessions without instances -/

/-- A session in which nothing has been realized is nested: nothing is held anywhere. -/
theorem nested_of_blank {s : Session} (hs : s.Blank) :
    Nested s ⟨s.forest.children, fun _ => [], s.forest.children⟩ := by
  have hsize : ∀ i, ¬ i < s.instances.size := by
    intro i hi
    rw [hs.no_instances] at hi
    exact Nat.not_lt_zero i hi
  have hranges : ∀ r, ¬ s.HasRange r := fun r ⟨i, hi, _⟩ => hsize i hi
  have hcoherent : Layout.Coherent ⟨s.forest.children, fun _ => [], s.forest.children⟩ :=
    { span_eq := fun _ => (List.flatMap_singleton' _).symm
      skeleton_nodup := hs.linked.nodup_children
      skeleton_unique := hs.linked.parent_unique
      text_once := nofun
      nest_once := nofun
      text_not_skeleton := nofun
      text_bare := nofun
      start := nofun }
  have hlists : Layout.Lists ⟨s.forest.children, fun _ => [], s.forest.children⟩
      s.forest.children :=
    { of_held := fun ⟨_, hm⟩ => nomatch hm
      of_not_held := fun _ => rfl
      span_infix := fun n => ⟨n, List.infix_refl _⟩ }
  exact
    { coherent := hcoherent
      linked := hs.linked
      lists := hlists
      block_owner := fun hi => absurd hi (hsize _)
      block_home := fun hi => absurd hi (hsize _)
      block_ends := fun hi => absurd hi (hsize _)
      home_unique := fun hi => absurd hi (hsize _)
      held_home := nofun
      held_range := nofun
      range_skeleton := fun hr => absurd hr (hranges _)
      range_text := fun hr => absurd hr (hranges _)
      range_apart := fun hr => absurd hr (hranges _)
      placed_block := by
        intro r b hb
        unfold Session.placedIn at hb
        rw [hs.nothing_placed] at hb
        exact nomatch hb
      held_placed := fun hr => absurd hr (hranges _) }

/-! ## A new instance -/

/-- The layout with new trees: the nodes from `first` on list the children given. -/
def Layout.grow (L : Layout) (first : NodeId) (children : NodeId → List NodeId) : Layout where
  skeleton := fun n => if n < first then L.skeleton n else children n
  held := L.held
  span := fun n => if n < first then L.span n else children n

namespace Nested

variable {s : Session} {L : Layout} {f : Forest} {ranges : List NodeRange} {m n x : NodeId}

@[simp] theorem held_grow (L : Layout) (first : NodeId) (children : NodeId → List NodeId) :
    (L.grow first children).held = L.held := rfl

theorem skeleton_grow_of_lt {first : NodeId} (children : NodeId → List NodeId) (hn : n < first) :
    (L.grow first children).skeleton n = L.skeleton n := if_pos hn

theorem skeleton_grow_of_le {first : NodeId} (children : NodeId → List NodeId)
    (hn : first ≤ n) : (L.grow first children).skeleton n = children n :=
  if_neg (Nat.not_lt.mpr hn)

theorem span_grow_of_lt {first : NodeId} (children : NodeId → List NodeId) (hn : n < first) :
    (L.grow first children).span n = L.span n := if_pos hn

theorem span_grow_of_le {first : NodeId} (children : NodeId → List NodeId)
    (hn : first ≤ n) : (L.grow first children).span n = children n :=
  if_neg (Nat.not_lt.mpr hn)

section Create

variable (h : Nested s L) (hf : Realized s.forest f ranges)

include h

theorem gap_grow (children : NodeId → List NodeId) (m : NodeId) :
    (L.grow s.forest.nextId children).gap m = L.gap m := by
  unfold Layout.gap
  rw [held_grow]
  refine List.flatMap_congr fun e he => ?_
  cases e with
  | text n => rfl
  | nest home => exact span_grow_of_lt children (h.nest_lt he)

include hf

/-- What is below a node is old or new, like the node itself. -/
theorem mem_skeleton_grow (hx : x ∈ (L.grow s.forest.nextId f.children).skeleton n) :
    n < s.forest.nextId ∧ x ∈ L.skeleton n ∧ x < s.forest.nextId ∨
      s.forest.nextId ≤ n ∧ x ∈ f.children n ∧ s.forest.nextId < x := by
  by_cases hn : n < s.forest.nextId
  · rw [skeleton_grow_of_lt _ hn] at hx
    exact .inl ⟨hn, hx, h.lt_nextId (h.coherent.mem_span_of_mem_skeleton hx)⟩
  · rw [skeleton_grow_of_le _ (Nat.le_of_not_lt hn)] at hx
    exact .inr ⟨Nat.le_of_not_lt hn, hx, hf.mem_new x n hx (Nat.le_of_not_lt hn)⟩

theorem coherent_grow : (L.grow s.forest.nextId f.children).Coherent where
  span_eq := by
    intro n
    by_cases hn : n < s.forest.nextId
    · rw [span_grow_of_lt _ hn, skeleton_grow_of_lt _ hn, h.coherent.span_eq]
      exact List.flatMap_congr fun m _ => by rw [h.gap_grow]
    · have hle := Nat.le_of_not_lt hn
      rw [span_grow_of_le _ hle, skeleton_grow_of_le _ hle]
      refine (List.flatMap_singleton' _).symm.trans (List.flatMap_congr fun m hm => ?_)
      rw [h.gap_grow, Layout.gap_of_held_eq_nil
        (h.held_eq_nil (Nat.le_of_lt (hf.mem_new m n hm hle)))]
  skeleton_nodup := by
    intro n
    by_cases hn : n < s.forest.nextId
    · rw [skeleton_grow_of_lt _ hn]
      exact h.coherent.skeleton_nodup n
    · rw [skeleton_grow_of_le _ (Nat.le_of_not_lt hn)]
      exact hf.linked.nodup_children n
  skeleton_unique := by
    intro x n n' hx hx'
    rcases h.mem_skeleton_grow hf hx with ⟨-, hold, hlt⟩ | ⟨-, hnew, hgt⟩
    · rcases h.mem_skeleton_grow hf hx' with ⟨-, hold', -⟩ | ⟨-, -, hgt⟩
      · exact h.coherent.skeleton_unique hold hold'
      · exact absurd hlt (Nat.not_lt.mpr (Nat.le_of_lt hgt))
    · rcases h.mem_skeleton_grow hf hx' with ⟨-, -, hlt⟩ | ⟨-, hnew', -⟩
      · exact absurd hlt (Nat.not_lt.mpr (Nat.le_of_lt hgt))
      · exact hf.linked.parent_unique hnew hnew'
  text_once := h.coherent.text_once
  nest_once := h.coherent.nest_once
  text_not_skeleton := by
    intro x m n hm hx
    rcases h.mem_skeleton_grow hf hx with ⟨-, hold, -⟩ | ⟨-, -, hgt⟩
    · exact h.coherent.text_not_skeleton hm hold
    · exact absurd (h.text_lt hm) (Nat.not_lt.mpr (Nat.le_of_lt hgt))
  text_bare := by
    intro x m hm
    rw [skeleton_grow_of_lt _ (h.text_lt hm), h.coherent.text_bare hm]
  start := by
    intro m hm
    obtain ⟨n, front, next, back, hsplit⟩ := h.coherent.start hm
    refine ⟨n, front, next, back, ?_⟩
    rw [skeleton_grow_of_lt _ (h.skeleton_lt (x := m) (by simp [hsplit])), hsplit]

theorem lists_grow : (L.grow s.forest.nextId f.children).Lists f.children where
  of_held := by
    rintro q ⟨m, hm⟩
    rw [hf.children_old q (h.nest_lt hm), h.lists.of_held ⟨m, hm⟩]
  of_not_held := by
    intro q hq
    by_cases hlt : q < s.forest.nextId
    · rw [hf.children_old q hlt, span_grow_of_lt _ hlt, h.lists.of_not_held hq]
    · rw [span_grow_of_le _ (Nat.le_of_not_lt hlt)]
  span_infix := by
    intro n
    by_cases hlt : n < s.forest.nextId
    · rw [span_grow_of_lt _ hlt]
      obtain ⟨p, hp⟩ := h.lists.span_infix n
      by_cases hplt : p < s.forest.nextId
      · exact ⟨p, by rwa [hf.children_old p hplt]⟩
      · rw [children_of_nextId_le (Nat.le_of_not_lt hplt), List.infix_nil] at hp
        exact ⟨n, hp ▸ List.nil_infix⟩
    · rw [span_grow_of_le _ (Nat.le_of_not_lt hlt)]
      exact ⟨n, List.infix_refl _⟩

omit h in
theorem text?_old (hn : n < s.forest.nextId) : f.text? n = s.forest.text? n :=
  text?_congr (hf.kind?_old n hn)

omit h hf in
theorem hasRange_created {t : TemplateId} {home : NodeId} {parts : List Part}
    {arguments : Option Value} {r : NodeRange}
    (hr : (s.created t f home parts arguments).HasRange r) :
    s.HasRange r ∨ r ∈ rangesOf (PartList.sites parts) := by
  obtain ⟨i, hi, hmem⟩ := hr
  rw [Session.size_created] at hi
  rcases Nat.lt_succ_iff_lt_or_eq.mp hi with hlt | rfl
  · rw [Session.instanceAt_created_of_lt _ _ _ _ _ _ hlt] at hmem
    exact .inl ⟨i, hlt, hmem⟩
  · rw [Session.instanceAt_created_self] at hmem
    exact .inr (mem_rangesOf.mpr hmem)

omit hf in
theorem range_lt {r : NodeRange} (hr : s.HasRange r) :
    r.start < s.forest.nextId ∧ r.stop < s.forest.nextId := by
  obtain ⟨n, front, back, hskeleton⟩ := h.range_skeleton hr
  exact ⟨h.lt_nextId (h.coherent.mem_span_of_mem_skeleton (n := n) (by simp [hskeleton])),
    h.lt_nextId (h.coherent.mem_span_of_mem_skeleton (n := n) (by simp [hskeleton]))⟩

/-- The ranges of a new instance are none of those that were there. -/
theorem range_apart_created {t : TemplateId} {home : NodeId} {parts : List Part}
    {arguments : Option Value} {r r' : NodeRange}
    (hparts : ranges = rangesOf (PartList.sites parts))
    (hr : (s.created t f home parts arguments).HasRange r)
    (hr' : (s.created t f home parts arguments).HasRange r') :
    r.start ≠ r'.stop ∧ (r.start = r'.start → r = r') := by
  subst hparts
  rcases hasRange_created hr with hold | hnew
  · rcases hasRange_created hr' with hold' | hnew'
    · exact h.range_apart hold hold'
    · obtain ⟨hstart, hstop, -⟩ := hf.fresh r' hnew'
      have hlt := (h.range_lt hold).1
      refine ⟨fun heq => ?_, fun heq => ?_⟩
      · rw [heq, hstop] at hlt
        exact absurd hstart (Nat.not_lt.mpr (Nat.le_of_lt (Nat.lt_of_succ_lt hlt)))
      · rw [heq] at hlt
        exact absurd hstart (Nat.not_lt.mpr (Nat.le_of_lt hlt))
  · rcases hasRange_created hr' with hold' | hnew'
    · obtain ⟨hstart, -⟩ := hf.fresh r hnew
      have hlt := h.range_lt hold'
      refine ⟨fun heq => ?_, fun heq => ?_⟩
      · rw [heq] at hstart
        exact absurd hlt.2 (Nat.not_lt.mpr (Nat.le_of_lt hstart))
      · rw [heq] at hstart
        exact absurd hlt.1 (Nat.not_lt.mpr (Nat.le_of_lt hstart))
    · exact hf.ranges_apart hnew hnew'

end Create

/-- The instances behind the making of a new one are the old ones and the new one. -/
theorem lt_or_eq_of_created {t : TemplateId} {home : NodeId} {parts : List Part}
    {arguments : Option Value} {i : InstanceId}
    (hi : i < (s.created t f home parts arguments).instances.size) :
    i < s.instances.size ∧
        (s.created t f home parts arguments).instanceAt i = s.instanceAt i ∨
      i = s.instances.size := by
  rw [Session.size_created] at hi
  rcases Nat.lt_succ_iff_lt_or_eq.mp hi with hlt | heq
  · exact .inl ⟨hlt, Session.instanceAt_created_of_lt _ _ _ _ _ _ hlt⟩
  · exact .inr heq

/-- A session with a new instance is nested again. -/
theorem create (h : Nested s L) {parts : List Part}
    (hf : Realized s.forest f (rangesOf (PartList.sites parts))) (t : TemplateId)
    (arguments : Option Value) :
    Nested (s.created t f s.forest.nextId parts arguments)
      (L.grow s.forest.nextId f.children) := by
  have hself := Session.instanceAt_created_self s t f s.forest.nextId parts arguments
  have hold : ∀ i, i < s.instances.size →
      i < (s.created t f s.forest.nextId parts arguments).instances.size ∧
        (s.created t f s.forest.nextId parts arguments).instanceAt i = s.instanceAt i := by
    intro i hi
    rw [Session.size_created]
    exact ⟨Nat.lt_succ_of_lt hi, Session.instanceAt_created_of_lt _ _ _ _ _ _ hi⟩
  have hhome : ∀ {i}, i < s.instances.size →
      (s.instanceAt i).block.home < s.forest.nextId := fun hi =>
    lt_nextId_of_isFragment (h.block_home hi)
  exact
    { coherent := h.coherent_grow hf
      linked := hf.linked
      lists := h.lists_grow hf
      block_owner := by
        intro i hi
        rcases lt_or_eq_of_created hi with ⟨hlt, hother⟩ | rfl
        · rw [hother, h.block_owner hlt]
        · rw [hself]
          rfl
      block_home := by
        intro i hi
        rcases lt_or_eq_of_created hi with ⟨hlt, hother⟩ | rfl
        · rw [hother]
          show f.isFragment _ = true
          rw [isFragment_congr (hf.kind?_old _ (hhome hlt)), h.block_home hlt]
        · rw [hself]
          exact hf.home_fragment
      block_ends := by
        intro i hi
        rcases lt_or_eq_of_created hi with ⟨hlt, hother⟩ | rfl
        · rw [hother, skeleton_grow_of_lt _ (hhome hlt), h.block_ends hlt]
        · rw [hself]
          show (Block.ofFragment s.instances.size s.forest.nextId f).ends
            = Block.endsOf ((L.grow s.forest.nextId f.children).skeleton s.forest.nextId)
          rw [skeleton_grow_of_le _ (Nat.le_refl _), Block.ends_ofFragment]
      home_unique := by
        intro i j hi hj heq
        rcases lt_or_eq_of_created hi with ⟨hlt, hother⟩ | rfl
        · rcases lt_or_eq_of_created hj with ⟨hlt', hother'⟩ | rfl
          · rw [hother, hother'] at heq
            exact h.home_unique hlt hlt' heq
          · rw [hother, hself] at heq
            exact absurd (hhome hlt) (Nat.not_lt.mpr (Nat.le_of_eq heq.symm))
        · rcases lt_or_eq_of_created hj with ⟨hlt', hother'⟩ | rfl
          · rw [hother', hself] at heq
            exact absurd (hhome hlt') (Nat.not_lt.mpr (Nat.le_of_eq heq))
          · rfl
      held_home := by
        intro m home hm
        obtain ⟨i, hi, rfl⟩ := h.held_home hm
        exact ⟨i, (hold i hi).1, by rw [(hold i hi).2]⟩
      held_range := by
        intro m hm
        obtain ⟨r, ⟨i, hi, hr⟩, hstart⟩ := h.held_range hm
        exact ⟨r, ⟨i, (hold i hi).1, by rwa [(hold i hi).2]⟩, hstart⟩
      range_skeleton := by
        intro r hr
        rcases hasRange_created hr with hold | hnew
        · obtain ⟨n, front, back, hsplit⟩ := h.range_skeleton hold
          refine ⟨n, front, back, ?_⟩
          rw [skeleton_grow_of_lt _ (h.skeleton_lt (x := r.start) (by simp [hsplit])), hsplit]
        · obtain ⟨-, -, -, q, front, back, hq, hsplit⟩ := hf.fresh r hnew
          exact ⟨q, front, back, by rw [skeleton_grow_of_le _ hq, hsplit]⟩
      range_text := by
        intro r hr
        show f.text? r.start = none
        rcases hasRange_created hr with hold | hnew
        · rw [text?_old hf (h.range_lt hold).1, h.range_text hold]
        · exact (hf.fresh r hnew).2.2.1
      range_apart := fun hr hr' => h.range_apart_created hf rfl hr hr'
      placed_block := by
        intro r b hb
        obtain ⟨i, hi, rfl⟩ := h.placed_block (r := r) hb
        exact ⟨i, (hold i hi).1, by rw [(hold i hi).2]⟩
      held_placed := by
        intro r home hr hheld
        rcases hasRange_created hr with hold | hnew
        · exact h.held_placed hold hheld
        · have hnone : L.held r.start = [] := h.held_eq_nil (Nat.le_of_lt (hf.fresh r hnew).1)
          rw [held_grow, hnone] at hheld
          exact nomatch hheld }

end Nested

end LiveTemplate
