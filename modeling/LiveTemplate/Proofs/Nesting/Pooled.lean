import LiveTemplate.Proofs.Nesting.Acts

/-!
# Pools of instances

Instances are often used on two levels only: those of a pool are placed in ranges of the others,
and their own ranges are given nothing but strings.  Such calls are always accepted (`accepts`), and
they spare what they drop (`spares`), whatever the ranges still remember of earlier contents.

The reason is that no pool instance ever gets hold of the nodes of another one.  `Pooled` says so
with a ghost: every node has a maker, the instance whose realization made it, and the range starts
made by the pool hold texts only.  So the span of a pool instance is its own skeleton and texts
(`origin`), and the spans of two of them are disjoint (`span_disjoint`).
-/

namespace LiveTemplate

set_option autoImplicit false

open Forest NodeRange

/-- The instances in `pool` are placed in ranges of the other instances, and all ranges are given
strings besides. -/
def Session.Posts (pool : InstanceId → Prop) (s : Session) : Act → Prop
  | .place r contents => ∃ j, j < s.instances.size ∧ .range r ∈ (s.instanceAt j).sites ∧
      (∀ c ∈ contents, (∃ t, c = .text t) ∨
        ∃ i, i < s.instances.size ∧ c = .block (s.instanceAt i).block ∧ pool i ∧ ¬ pool j) ∧
      (contents.filterMap Content.block?).Nodup
  | _ => True

/-- Every node has a maker, and the ranges made by the pool hold texts only. -/
structure Pooled (pool : InstanceId → Prop) (s : Session) (L : Layout)
    (maker : NodeId → InstanceId) : Prop where
  home : ∀ {i : InstanceId}, i < s.instances.size → maker (s.instanceAt i).block.home = i
  skeleton : ∀ {x n : NodeId}, x ∈ L.skeleton n → maker x = maker n
  range : ∀ {i : InstanceId} {r : NodeRange}, i < s.instances.size →
    .range r ∈ (s.instanceAt i).sites → maker r.start = i
  holds : ∀ {m home : NodeId}, .nest home ∈ L.held m → pool (maker home) ∧ ¬ pool (maker m)
  placed : ∀ {r : NodeRange} {b : Block}, b ∈ s.placedIn r →
    ∃ i, i < s.instances.size ∧ b = (s.instanceAt i).block ∧ pool i

namespace Pooled

variable {pool : InstanceId → Prop} {s : Session} {L : Layout} {maker : NodeId → InstanceId}
  {r : NodeRange} {contents : List Content} {items : List Item} {a b n x : NodeId}

/-- In a session without instances nothing is pooled. -/
theorem of_blank (hs : s.Blank) :
    Pooled pool s ⟨s.forest.children, fun _ => [], s.forest.children⟩ fun _ => 0 := by
  have hsize : ∀ i, ¬ i < s.instances.size := by
    intro i hi
    rw [hs.no_instances] at hi
    exact Nat.not_lt_zero i hi
  refine ⟨fun hi => absurd hi (hsize _), fun _ => rfl, fun hi => absurd hi (hsize _), nofun, ?_⟩
  intro r b hb
  unfold Session.placedIn at hb
  rw [hs.nothing_placed] at hb
  exact nomatch hb

/-! ## Spans of the pool -/

section Spans

variable (h : Nested s L) (hp : Pooled pool s L maker)

include h hp

/-- A node made by the pool has its skeleton below it, and the texts of ranges in there. -/
theorem origin (hn : pool (maker n)) (hx : x ∈ L.span n) :
    x ∈ L.skeleton n ∨ ∃ q ∈ L.skeleton n, .text x ∈ L.held q := by
  obtain ⟨m, hm, rfl | hgap⟩ := h.coherent.mem_span_iff.mp hx
  · exact .inl hm
  · rcases Layout.mem_gap.mp hgap with htext | ⟨home, hnest, -⟩
    · exact .inr ⟨m, hm, htext⟩
    · refine absurd ?_ (hp.holds hnest).2
      rwa [hp.skeleton hm]

/-- A node made by the pool holds no skeletons of other makers. -/
theorem maker_eq (hn : pool (maker n)) (hx : x ∈ L.span n) (ha : x ∈ L.skeleton a) :
    maker x = maker n := by
  rcases hp.origin h hn hx with hskeleton | ⟨q, -, htext⟩
  · exact hp.skeleton hskeleton
  · exact absurd ha (h.coherent.text_not_skeleton htext)

/-- Nodes with different makers in the pool have nothing below them in common. -/
theorem span_disjoint (ha : pool (maker a)) (hb : pool (maker b)) (hne : maker a ≠ maker b) :
    List.Disjoint (L.span a) (L.span b) := by
  intro x hxa hxb
  rcases hp.origin h ha hxa with hskeleton | ⟨q, hq, htext⟩
  · exact hne ((hp.skeleton hskeleton).symm.trans (hp.maker_eq h hb hxb hskeleton))
  · rcases hp.origin h hb hxb with hskeleton | ⟨q', hq', htext'⟩
    · exact h.coherent.text_not_skeleton htext hskeleton
    · obtain rfl := h.coherent.text_once htext htext'
      exact hne ((hp.skeleton hq).symm.trans (hp.skeleton hq'))

/-- Different instances of the pool have no nodes in common. -/
theorem block_disjoint {i j : InstanceId} (hi : i < s.instances.size) (hj : j < s.instances.size)
    (hpi : pool i) (hpj : pool j) (hne : i ≠ j) :
    List.Disjoint (L.span (s.instanceAt i).block.home) (L.span (s.instanceAt j).block.home) := by
  refine hp.span_disjoint h ?_ ?_ ?_
  · rwa [hp.home hi]
  · rwa [hp.home hj]
  · rwa [hp.home hi, hp.home hj]

end Spans

/-! ## Calls of the pool -/

section Calls

variable (h : Nested s L) (hp : Pooled pool s L maker) (hposts : s.Posts pool (.place r contents))

include hposts

/-- The range that is filled is a range of an instance. -/
theorem hasRange : s.HasRange r := by
  obtain ⟨j, hj, hr, -⟩ := hposts
  exact ⟨j, hj, hr⟩

/-- What is given are strings and instances. -/
theorem offers : s.Offers contents ∧ ∀ fault, .refused fault ∉ contents := by
  obtain ⟨j, hj, hr, hgiven, -⟩ := hposts
  refine ⟨fun c hc => ?_, fun fault hc => ?_⟩
  · rcases hgiven c hc with htext | ⟨i, hi, hblock, -⟩
    · exact .inl htext
    · exact .inr (.inl ⟨i, hi, hblock⟩)
  · rcases hgiven _ hc with ⟨t, htext⟩ | ⟨i, hi, hblock, -⟩
    · exact nomatch htext
    · exact nomatch hblock

include hp

/-- The instances that are given belong to the pool, and the range does not. -/
theorem of_given {b : Block} (hb : .block b ∈ contents) :
    (∃ i, i < s.instances.size ∧ b = (s.instanceAt i).block ∧ pool i) ∧
      ¬ pool (maker r.start) := by
  obtain ⟨j, hj, hr, hgiven, -⟩ := hposts
  rcases hgiven _ hb with ⟨t, htext⟩ | ⟨i, hi, hblock, hpi, hpj⟩
  · exact nomatch htext
  · cases hblock
    refine ⟨⟨i, hi, rfl, hpi⟩, ?_⟩
    rwa [hp.range hj hr]

/-- A wanted node is below an instance of the pool that is given to a range outside the pool. -/
theorem of_wanted (hx : x ∈ (contents.flatMap (Content.itemsIn L)).filterMap Item.node?) :
    ∃ i, i < s.instances.size ∧ .block (s.instanceAt i).block ∈ contents ∧ pool i ∧
      ¬ pool (maker r.start) ∧ x ∈ L.span (s.instanceAt i).block.home := by
  rw [Nested.nodes_eq_blocks (offers hposts).1, List.mem_flatMap] at hx
  obtain ⟨b, hb, hx⟩ := hx
  have hc := Content.mem_blocks.mp hb
  obtain ⟨⟨i, hi, rfl, hpi⟩, hstart⟩ := hp.of_given hposts hc
  exact ⟨i, hi, hc, hpi, hstart, hx⟩

include h

/-- Calls of the pool are accepted. -/
theorem accepts : s.Accepts r contents (contents.flatMap (Content.itemsIn L)) := by
  obtain ⟨hoffers, hnone⟩ := offers hposts
  obtain ⟨n, front, back, hskeleton⟩ := h.range_skeleton (hasRange hposts)
  have hstart : r.start ∈ L.skeleton n := by simp [hskeleton]
  have hstop : r.stop ∈ L.skeleton n := by simp [hskeleton]
  refine ⟨hasRange hposts, hoffers,
    wanted_eq_ok_iff.mpr ⟨h.allItems_ok hoffers hnone, ?_, ?_⟩, ?_⟩
  · rw [Nested.nodes_eq_blocks hoffers, List.nodup_flatMap]
    constructor
    · intro b hb
      obtain ⟨p, hp⟩ := h.lists.span_infix b.home
      exact (h.linked.nodup_children p).sublist hp.sublist
    · refine hposts.choose_spec.2.2.2.imp_of_mem fun {b b'} hb hb' hne => ?_
      obtain ⟨⟨i, hi, rfl, hpi⟩, -⟩ := hp.of_given hposts (Content.mem_blocks.mp hb)
      obtain ⟨⟨j, hj, rfl, hpj⟩, -⟩ := hp.of_given hposts (Content.mem_blocks.mp hb')
      apply hp.block_disjoint h hi hj hpi hpj
      rintro rfl
      exact hne rfl
  · intro x hx
    obtain ⟨i, hi, -, hpi, hout, hspan⟩ := hp.of_wanted hposts hx
    have hhome : pool (maker (s.instanceAt i).block.home) := by rwa [hp.home hi]
    refine ⟨?_, ?_⟩
    · intro heq
      rw [heq] at hspan
      exact hout ((hp.maker_eq h hhome hspan hstart).symm ▸ hhome)
    · intro heq
      rw [heq] at hspan
      have hsame := hp.maker_eq h hhome hspan hstop
      rw [hp.skeleton hstop, ← hp.skeleton hstart] at hsame
      exact hout (hsame.symm ▸ hhome)
  · rintro x hx p hchild rfl
    obtain ⟨i, hi, -, hpi, hout, hspan⟩ := hp.of_wanted hposts hx
    have hhome : pool (maker (s.instanceAt i).block.home) := by rwa [hp.home hi]
    have hnot : ¬ L.Held x := by
      rintro ⟨m, hm⟩
      obtain ⟨k, hk, rfl⟩ := h.held_home hm
      exact absurd (h.block_home hk) (by simp [h.not_isFragment hspan])
    rw [h.lists.of_not_held hnot] at hchild
    rcases hp.origin h hhome hspan with hmade | ⟨q, -, htext⟩
    · have hx : pool (maker x) := by rwa [hp.skeleton hmade]
      exact hout ((hp.maker_eq h hx hchild hstart).symm ▸ hx)
    · rw [h.coherent.span_eq_nil_iff.mpr (h.coherent.text_bare htext)] at hchild
      exact nomatch hchild

/-- Calls of the pool spare what they drop. -/
theorem spares : s.Spares r contents := by
  have hcall := hp.accepts h hposts
  intro items held hitems hheld b roots hdrops
  rw [hcall.accepted, Except.ok.injEq] at hitems
  subst hitems
  have hspan : ∀ {b' roots'}, b' ∈ s.placedIn r → b'.roots s.forest = .ok roots' →
      ∃ i, i < s.instances.size ∧ b' = (s.instanceAt i).block ∧ pool i ∧
        roots' = L.span b'.home := by
    intro b' roots' hplaced hroots
    obtain ⟨i, hi, rfl, hpi⟩ := hp.placed hplaced
    rw [h.roots_eq ⟨i, hi, rfl⟩, Except.ok.injEq] at hroots
    exact ⟨i, hi, rfl, hpi, hroots.symm⟩
  obtain ⟨i, hi, rfl, hpi, rfl⟩ := hspan hdrops.placed hdrops.roots_eq
  have hnone : ∀ n ∈ L.span (s.instanceAt i).block.home,
      n ∉ (contents.flatMap (Content.itemsIn L)).filterMap Item.node? := by
    intro n hn hwanted
    obtain ⟨j, hj, hgiven, hpj, -, hnj⟩ := hp.of_wanted hposts hwanted
    refine hp.block_disjoint h hi hj hpi hpj ?_ hn hnj
    rintro rfl
    exact hdrops.not_kept (List.mem_map.mpr
      ⟨_, Content.mem_blocks.mpr hgiven, rfl⟩)
  refine .inr ⟨hnone, ?_⟩
  obtain ⟨held', hheld', hinside⟩ := hdrops.inside
  rw [hheld, Except.ok.injEq] at hheld'
  subst hheld'
  have hback : ((s.instanceAt i).block, L.span (s.instanceAt i).block.home) ∈
      handedBack s.forest (s.placedIn r) contents held
        ((contents.flatMap (Content.itemsIn L)).filterMap Item.node?) :=
    mem_released.mpr ⟨hdrops.placed, hdrops.roots_eq, hdrops.not_kept, hinside, hnone⟩
  obtain ⟨front, e, back, hsplit, he, hlast⟩ := exists_last
    (P := fun e : Block × List NodeId => e = ((s.instanceAt i).block,
      L.span (s.instanceAt i).block.home)) ⟨_, hback, rfl⟩
  refine ⟨front, e, back, hsplit, ?_, fun e' he' n hn hmem => ?_⟩
  · rw [he]
    exact fun n hn => hn
  · have hmember : (e'.1, e'.2) ∈ handedBack s.forest (s.placedIn r) contents held
        ((contents.flatMap (Content.itemsIn L)).filterMap Item.node?) := by
      rw [hsplit]
      simp [he']
    obtain ⟨hplaced, hroots, -⟩ := mem_released.mp hmember
    obtain ⟨j, hj, hblock, hpj, hspan'⟩ := hspan hplaced hroots
    apply hlast e' he'
    by_cases hij : j = i
    · subst hij
      rw [← hblock, ← hspan']
    · rw [hspan', hblock] at hn
      exact absurd hmem (hp.block_disjoint h hj hi hpj hpi hij hn)

end Calls

/-! ## What acts preserve -/

/-- Acts that move no nodes keep the makers. -/
theorem of_alike {s' : Session} (hp : Pooled pool s L maker) (hs : s.Alike s') :
    Pooled pool s' L maker := by
  refine ⟨?_, hp.skeleton, ?_, hp.holds, ?_⟩
  · intro i hi
    rw [hs.block, hp.home (hs.size ▸ hi)]
  · intro i r hi hr
    rw [Instance.sites, hs.parts] at hr
    exact hp.range (hs.size ▸ hi) hr
  · intro r b hb
    rw [hs.placedIn] at hb
    obtain ⟨i, hi, hblock, hpi⟩ := hp.placed hb
    exact ⟨i, hs.size ▸ hi, by rw [hs.block, hblock], hpi⟩

/-- A new instance makes the nodes that its realization adds. -/
theorem create {f : Forest} {parts : List Part} (h : Nested s L) (hp : Pooled pool s L maker)
    (hf : Realized s.forest f (rangesOf (PartList.sites parts))) (t : TemplateId)
    (arguments : Option Value) :
    Pooled pool (s.created t f s.forest.nextId parts arguments)
      (L.grow s.forest.nextId f.children)
      fun n => if n < s.forest.nextId then maker n else s.instances.size := by
  have hself := Session.instanceAt_created_self s t f s.forest.nextId parts arguments
  have hother : ∀ {i}, i < s.instances.size →
      (s.created t f s.forest.nextId parts arguments).instanceAt i = s.instanceAt i := fun hi =>
    Session.instanceAt_created_of_lt s t f s.forest.nextId parts arguments hi
  refine ⟨?_, ?_, ?_, ?_, ?_⟩
  · intro i hi
    rw [Session.size_created] at hi
    rcases Nat.lt_succ_iff_lt_or_eq.mp hi with hlt | rfl
    · rw [hother hlt, if_pos (lt_nextId_of_isFragment (h.block_home hlt)), hp.home hlt]
    · rw [hself]
      exact if_neg (Nat.lt_irrefl _)
  · intro x n hx
    rcases h.mem_skeleton_grow hf hx with ⟨hn, hold, hlt⟩ | ⟨hn, -, hgt⟩
    · rw [if_pos hn, if_pos hlt, hp.skeleton hold]
    · rw [if_neg (Nat.not_lt.mpr hn), if_neg (Nat.not_lt.mpr (Nat.le_of_lt hgt))]
  · intro i r hi hr
    rw [Session.size_created] at hi
    rcases Nat.lt_succ_iff_lt_or_eq.mp hi with hlt | rfl
    · rw [hother hlt] at hr
      rw [if_pos (h.range_lt ⟨i, hlt, hr⟩).1, hp.range hlt hr]
    · rw [hself] at hr
      have hfresh := (hf.fresh r (mem_rangesOf.mpr hr)).1
      exact if_neg (Nat.not_lt.mpr (Nat.le_of_lt hfresh))
  · intro m home hm
    obtain ⟨r, hr, rfl⟩ := h.held_range (List.ne_nil_of_mem hm)
    rw [if_pos (h.nest_lt hm), if_pos (h.range_lt hr).1]
    exact hp.holds hm
  · intro r b hb
    obtain ⟨i, hi, hblock, hpi⟩ := hp.placed (r := r) hb
    refine ⟨i, ?_, ?_, hpi⟩
    · rw [Session.size_created]
      exact Nat.lt_succ_of_lt hi
    · rw [hother hi, hblock]

/-- A call of the pool leaves the makers as they are. -/
theorem place {f g : Forest} {entries : List Entry} (hp : Pooled pool s L maker)
    (hposts : s.Posts pool (.place r contents)) (hshows : List.Forall₂ (Shows g) contents entries) :
    Pooled pool ({ s with forest := f }.remember r (contents.filterMap Content.block?))
      (L.place r.start entries) maker := by
  refine ⟨hp.home, hp.skeleton, hp.range, ?_, ?_⟩
  · intro m home hm
    rcases Layout.mem_held_place.mp hm with ⟨rfl, hin⟩ | ⟨-, hheld, -⟩
    · obtain ⟨c, hc, hshow⟩ := forall₂_exists_left hshows hin
      cases c with
      | block b =>
          obtain rfl := hshow
          obtain ⟨⟨i, hi, rfl, hpi⟩, hout⟩ := hp.of_given hposts hc
          refine ⟨?_, hout⟩
          rwa [hp.home hi]
      | text t => exact hshow.elim
      | node n => exact hshow.elim
      | refused fault => exact hshow.elim
    · exact hp.holds hheld
  · intro r' b hb
    rw [Session.placedIn_remember] at hb
    by_cases hr : r' = r
    · rw [if_pos hr] at hb
      exact (hp.of_given hposts (Content.mem_blocks.mp hb)).1
    · rw [if_neg hr] at hb
      exact hp.placed hb

end Pooled

end LiveTemplate
