import LiveTemplate.Proofs.Nesting.Acts
import LiveTemplate.Proofs.RootSpan.Tracked

/-!
# Sessions in which instances have homes

A session is homed when its links are in order, every instance has a fragment of its own, and
ranges remember nothing but blocks of instances.  Everything that is made of live nodes, strings and
instances keeps a session homed, however ranges and nodes are mixed (`Homed.after`).

What a call on a range does to a homed session is said once (`Homed.after_place`): it does nothing
or it is a `Placement`, of which the session remembers the blocks.
-/

namespace LiveTemplate

set_option autoImplicit false

open Forest NodeRange

variable {s s' : Session} {r : NodeRange} {contents : List Content} {items : List Item}
  {b : Block} {i j : InstanceId} {n : NodeId} {ns : List NodeId}

/-- A node that may be handed over by itself: it is live and no fragment. -/
def Forest.Placeable (f : Forest) (n : NodeId) : Prop := n < f.nextId ∧ f.isFragment n = false

instance (f : Forest) (n : NodeId) : Decidable (f.Placeable n) :=
  inferInstanceAs (Decidable (_ ∧ _))

theorem Forest.Linked.placeable_of_mem {f : Forest} {p : NodeId} (hf : f.Linked)
    (h : n ∈ f.children p) : f.Placeable n := ⟨hf.lt_nextId h, hf.not_isFragment h⟩

theorem Forest.Placeable.congr {f f' : Forest} (h : f.Placeable n) (hle : f.nextId ≤ f'.nextId)
    (hkind : f'.kind? n = f.kind? n) : f'.Placeable n :=
  ⟨Nat.lt_of_lt_of_le h.1 hle, (isFragment_congr hkind).trans h.2⟩

namespace Session

/-- Instances have fragments of their own, and ranges remember blocks of instances. -/
structure Homed (s : Session) : Prop where
  linked : s.forest.Linked
  home_fragment : ∀ {j : InstanceId}, j < s.instances.size →
    s.forest.isFragment (s.instanceAt j).block.home = true
  home_unique : ∀ {j k : InstanceId}, j < s.instances.size → k < s.instances.size →
    (s.instanceAt j).block.home = (s.instanceAt k).block.home → j = k
  ends_placeable : ∀ {j : InstanceId} {first last : NodeId}, j < s.instances.size →
    (s.instanceAt j).block.ends = some (first, last) →
      s.forest.Placeable first ∧ s.forest.Placeable last
  placed_block : ∀ {r : NodeRange} {b : Block}, b ∈ s.placedIn r →
    ∃ j, j < s.instances.size ∧ b = (s.instanceAt j).block

/-- Contents made of strings, live nodes other than fragments, and instances, or refused. -/
structure Presents (s : Session) (contents : List Content) : Prop where
  blocks : ∀ b, .block b ∈ contents → ∃ j, j < s.instances.size ∧ b = (s.instanceAt j).block
  nodes : ∀ n, .node n ∈ contents → s.forest.Placeable n

/-- A single content of these. -/
def PresentsOne (s : Session) : Content → Prop
  | .block b => ∃ j, j < s.instances.size ∧ b = (s.instanceAt j).block
  | .node n => s.forest.Placeable n
  | .text _ | .refused _ => True

instance (s : Session) : DecidablePred s.PresentsOne
  | .block _ => inferInstanceAs (Decidable (∃ j, j < _ ∧ _))
  | .node n => inferInstanceAs (Decidable (s.forest.Placeable n))
  | .text _ | .refused _ => .isTrue trivial

theorem presents_iff : s.Presents contents ↔ ∀ c ∈ contents, s.PresentsOne c := by
  constructor
  · intro h c hc
    cases c with
    | block b => exact h.blocks b hc
    | node n => exact h.nodes n hc
    | text t => trivial
    | refused fault => trivial
  · exact fun h => ⟨fun b hb => h _ hb, fun n hn => h _ hn⟩

instance (s : Session) (contents : List Content) : Decidable (s.Presents contents) :=
  decidable_of_iff _ presents_iff.symm

/-- The nodes that contents stand for. -/
def nodesOf (s : Session) (contents : List Content) : List NodeId :=
  match Content.allItems s.forest contents with
  | .ok items => items.filterMap Item.node?
  | .error _ => []

theorem nodesOf_eq (h : Content.allItems s.forest contents = .ok items) :
    s.nodesOf contents = items.filterMap Item.node? := by
  unfold nodesOf
  rw [h]

end Session

/-! ## The nodes of contents -/

namespace Session.Homed

/-- The root nodes of an instance may be handed over. -/
theorem roots_placeable (hs : s.Homed) (hj : j < s.instances.size)
    (h : (s.instanceAt j).block.roots s.forest = .ok ns) (hn : n ∈ ns) : s.forest.Placeable n := by
  rcases Block.roots_cases h with ⟨-, rfl⟩ | ⟨first, last, met, rest, hends, rfl, hsplit⟩
  · exact nomatch hn
  · obtain ⟨hfirst, hlast⟩ := hs.ends_placeable hj hends
    rw [List.mem_append, List.mem_singleton] at hn
    rcases hn with hmet | rfl
    · have hmem : n ∈ first :: s.forest.after first := by
        rw [hsplit]
        exact List.mem_append_left _ hmet
      rcases List.mem_cons.mp hmem with rfl | hafter
      · exact hfirst
      · rcases siblings_from hs.linked first with halone | ⟨q, before, hq⟩
        · rw [halone] at hafter
          exact nomatch hafter
        · refine hs.linked.placeable_of_mem (p := q) ?_
          rw [hq]
          simp [hafter]
    · exact hlast

/-- So may everything that is offered. -/
theorem items_placeable (hs : s.Homed) (hc : s.Presents contents)
    (h : Content.allItems s.forest contents = .ok items) :
    ∀ n ∈ items.filterMap Item.node?, s.forest.Placeable n := by
  intro n hn
  obtain ⟨item, hitem, hnode⟩ := List.mem_filterMap.mp hn
  obtain rfl : item = .node n := by
    cases item <;> cases hnode
    rfl
  rcases Content.node_mem_allItems h hitem with hgiven | ⟨b, ns, hb, hroots, hmem⟩
  · exact hc.nodes n hgiven
  · obtain ⟨j, hj, rfl⟩ := hc.blocks b hb
    exact hs.roots_placeable hj hroots hmem

end Session.Homed

/-! ## Calls on ranges -/

/-- The session `s'` is what a placement has left of the session `s`. -/
structure Session.Placed (s s' : Session) (r : NodeRange) (contents : List Content)
    (c : Placement s.forest s'.forest) : Prop where
  range_eq : c.range = r
  wanted : r.wanted contents s.forest = .ok c.items
  released_eq : c.released = handedBack s.forest (s.placedIn r) contents c.inside c.given
  instances_eq : s'.instances = s.instances
  placed : ∀ {r' : NodeRange} {b : Block}, b ∈ s'.placedIn r' →
    b ∈ s.placedIn r' ∨ .block b ∈ contents

theorem Session.instanceAt_congr (h : s'.instances = s.instances) (j : InstanceId) :
    s'.instanceAt j = s.instanceAt j := by
  unfold Session.instanceAt
  rw [h]

namespace Session.Homed

/-- Giving a range new contents does nothing or places them. -/
theorem after_place (hs : s.Homed) (hc : s.Presents contents) :
    Act.after s (.place r contents) = s ∨
      ∃ c, s.Placed (Act.after s (.place r contents)) r contents c := by
  cases hwanted : r.wanted contents s.forest with
  | error fault =>
      exact .inl (Live.after_of_error (Live.replaceContents_error (reconcile_error hwanted)))
  | ok items =>
      cases hinside : r.items s.forest with
      | error fault =>
          exact .inl (Live.after_of_error
            (Live.replaceContents_error (reconcile_items_error hwanted hinside)))
      | ok inside =>
          right
          obtain ⟨p, before, behind, hr⟩ := exists_stands hs.linked hinside
          obtain ⟨hitems, -⟩ := wanted_eq_ok_iff.mp hwanted
          have hplaced : ∀ b ∈ s.placedIn r, s.forest.isFragment b.home = true := by
            intro b hb
            obtain ⟨j, hj, rfl⟩ := hs.placed_block hb
            exact hs.home_fragment hj
          obtain ⟨shown, lost, f', hrun, hf'⟩ := reconcile_rearranged hs.linked hr hwanted
            (hs.items_placeable hc hitems) hplaced
          have hplacement : ∀ s', s'.forest = f' → s'.instances = s.instances →
              (∀ {r' : NodeRange} {b : Block}, b ∈ s'.placedIn r' →
                b ∈ s.placedIn r' ∨ .block b ∈ contents) → ∃ c, s.Placed s' r contents c := by
            rintro s' rfl hinstances hplaced
            exact ⟨{ range := r, parent := p, before, inside, behind, items, shown, lost,
                     released := handedBack s.forest (s.placedIn r) contents inside
                       (items.filterMap Item.node?)
                     stands := hr, outcome := hf',
                     back_inside := fun _ _ => mem_of_mem_homecomings },
              rfl, hwanted, rfl, hinstances, hplaced⟩
          rcases hrun with hok | hfails
          · rw [show Act.after s (.place r contents) = _ from
              Live.after_of_ok (Live.replaceContents_ok hok)]
            refine hplacement _ rfl rfl fun {r' b} hb => ?_
            rw [placedIn_remember] at hb
            split at hb
            · exact .inr (Content.mem_blocks.mp hb)
            · exact .inl hb
          · rw [show Act.after s (.place r contents) = _ from
              Live.after_of_error (Live.replaceContents_error hfails)]
            exact hplacement _ rfl rfl fun hb => .inl hb

/-- What a placement leaves is homed. -/
theorem of_placed (hs : s.Homed) (hc : s.Presents contents) {c : Placement s.forest s'.forest}
    (h : s.Placed s' r contents c) : s'.Homed where
  linked := c.outcome.linked
  home_fragment := by
    intro j hj
    rw [h.instances_eq] at hj
    have hold := hs.home_fragment hj
    rw [instanceAt_congr h.instances_eq,
      isFragment_congr (c.outcome.kind?_eq _ (lt_nextId_of_isFragment hold)), hold]
  home_unique := by
    intro j k hj hk hhome
    rw [h.instances_eq] at hj hk
    rw [instanceAt_congr h.instances_eq, instanceAt_congr h.instances_eq] at hhome
    exact hs.home_unique hj hk hhome
  ends_placeable := by
    intro j first last hj hends
    rw [h.instances_eq] at hj
    rw [instanceAt_congr h.instances_eq] at hends
    obtain ⟨hfirst, hlast⟩ := hs.ends_placeable hj hends
    exact ⟨hfirst.congr c.outcome.nextId_le (c.outcome.kind?_eq _ hfirst.1),
      hlast.congr c.outcome.nextId_le (c.outcome.kind?_eq _ hlast.1)⟩
  placed_block := by
    intro r' b hb
    simp only [h.instances_eq, instanceAt_congr h.instances_eq]
    rcases h.placed hb with hold | hnew
    · exact hs.placed_block hold
    · exact hc.blocks b hnew

/-- Nothing comes home to an instance that is kept or not in the range as a whole. -/
theorem home_spared (hs : s.Homed) {c : Placement s.forest s'.forest}
    (h : s.Placed s' r contents c) (hi : i < s.instances.size)
    (hroots : (s.instanceAt i).block.roots s.forest = .ok ns)
    (hkept : .block (s.instanceAt i).block ∈ contents ∨ ((∀ n ∈ ns, n ∈ c.inside) → ns = [])) :
    homecomings c.released (s.instanceAt i).block.home = [] := by
  rw [List.eq_nil_iff_forall_not_mem]
  intro n hn
  obtain ⟨⟨b, roots⟩, he, hhome, hn⟩ := exists_of_mem_homecomings hn
  rw [h.released_eq, handedBack, mem_released] at he
  obtain ⟨hplaced, hrootsOf, howner, hin, -⟩ := he
  obtain ⟨j, hj, rfl⟩ := hs.placed_block hplaced
  obtain rfl : j = i := hs.home_unique hj hi hhome
  rcases hkept with hblock | hpart
  · exact howner (List.mem_map.mpr ⟨_, List.mem_filterMap.mpr ⟨_, hblock, rfl⟩, rfl⟩)
  · obtain rfl : ns = roots := Except.ok.inj (hroots.symm.trans hrootsOf)
    rw [hpart hin] at hn
    exact List.not_mem_nil hn

/-- A session to which an instance has been added is homed. -/
theorem created (hs : s.Homed) {f : Forest} {parts : List Part}
    (hf : Realized s.forest f (rangesOf (PartList.sites parts))) (t : TemplateId)
    (arguments : Option Value) :
    (s.created t f s.forest.nextId parts arguments).Homed where
  linked := hf.linked
  home_fragment := by
    intro j hj
    rw [size_created] at hj
    rcases Nat.lt_succ_iff_lt_or_eq.mp hj with hold | rfl
    · have hhome := hs.home_fragment hold
      rw [instanceAt_created_of_lt _ _ _ _ _ _ hold]
      exact (isFragment_congr (hf.kind?_old _ (lt_nextId_of_isFragment hhome))).trans hhome
    · rw [instanceAt_created_self]
      exact hf.home_fragment
  home_unique := by
    intro j k hj hk hhome
    have hold : ∀ {j : InstanceId}, j < s.instances.size →
        (s.instanceAt j).block.home ≠ s.forest.nextId := fun hj =>
      Nat.ne_of_lt (lt_nextId_of_isFragment (hs.home_fragment hj))
    rw [size_created] at hj hk
    rcases Nat.lt_succ_iff_lt_or_eq.mp hj with hj | rfl <;>
      rcases Nat.lt_succ_iff_lt_or_eq.mp hk with hk | rfl
    · rw [instanceAt_created_of_lt _ _ _ _ _ _ hj, instanceAt_created_of_lt _ _ _ _ _ _ hk] at hhome
      exact hs.home_unique hj hk hhome
    · rw [instanceAt_created_of_lt _ _ _ _ _ _ hj, instanceAt_created_self] at hhome
      exact absurd hhome (hold hj)
    · rw [instanceAt_created_of_lt _ _ _ _ _ _ hk, instanceAt_created_self] at hhome
      exact absurd hhome.symm (hold hk)
    · rfl
  ends_placeable := by
    intro j first last hj hends
    rw [size_created] at hj
    rcases Nat.lt_succ_iff_lt_or_eq.mp hj with hold | rfl
    · rw [instanceAt_created_of_lt _ _ _ _ _ _ hold] at hends
      obtain ⟨hfirst, hlast⟩ := hs.ends_placeable hold hends
      have hle := Nat.le_of_lt hf.home_lt
      exact ⟨hfirst.congr hle (hf.kind?_old _ hfirst.1), hlast.congr hle (hf.kind?_old _ hlast.1)⟩
    · rw [instanceAt_created_self, Block.ends_ofFragment] at hends
      obtain ⟨hfirst, hlast⟩ := Block.mem_of_endsOf hends
      exact ⟨hf.linked.placeable_of_mem hfirst, hf.linked.placeable_of_mem hlast⟩
  placed_block := by
    intro r b hb
    obtain ⟨j, hj, rfl⟩ := hs.placed_block hb
    exact ⟨j, by rw [size_created]; exact Nat.lt_succ_of_lt hj,
      by rw [instanceAt_created_of_lt _ _ _ _ _ _ hj]⟩

/-- So is one that differs in nothing that matters here. -/
theorem of_alike (hs : s.Homed) (hlinked : s'.forest.Linked) (h : s.Alike s')
    (hnext : s'.forest.nextId = s.forest.nextId) : s'.Homed where
  linked := hlinked
  home_fragment := by
    intro j hj
    rw [h.block, h.isFragment, hs.home_fragment (h.size ▸ hj)]
  home_unique := by
    intro j k hj hk hhome
    rw [h.block, h.block] at hhome
    exact hs.home_unique (h.size ▸ hj) (h.size ▸ hk) hhome
  ends_placeable := by
    intro j first last hj hends
    rw [h.block] at hends
    unfold Placeable
    rw [hnext, h.isFragment, h.isFragment]
    exact hs.ends_placeable (h.size ▸ hj) hends
  placed_block := by
    intro r b hb
    rw [h.placedIn] at hb
    obtain ⟨j, hj, rfl⟩ := hs.placed_block hb
    exact ⟨j, h.size ▸ hj, (h.block j).symm⟩

/-- A session without instances is homed. -/
theorem of_blank (hs : s.Blank) : s.Homed where
  linked := hs.linked
  home_fragment := by
    intro j hj
    simp [hs.no_instances] at hj
  home_unique := by
    intro j k hj
    simp [hs.no_instances] at hj
  ends_placeable := by
    intro j first last hj
    simp [hs.no_instances] at hj
  placed_block := by
    intro r b hb
    simp [placedIn, hs.nothing_placed] at hb

end Session.Homed

/-- Acts that give ranges nothing but strings, live nodes other than fragments, and instances. -/
def Act.Sound (s : Session) : Act → Prop
  | .place _ contents => s.Presents contents
  | _ => True

/-- Sound acts keep a session homed. -/
theorem Session.Homed.after {a : Act} (hs : s.Homed) (ha : a.Sound s) : (a.after s).Homed := by
  cases a with
  | create t arguments =>
      obtain ⟨parts, f, hf, hafter⟩ := Act.after_create hs.linked t arguments
      rw [hafter]
      exact hs.created hf t arguments
  | place r contents =>
      rcases hs.after_place (r := r) ha with hsame | ⟨c, hc⟩
      · rw [hsame]
        exact hs
      · exact hs.of_placed ha hc
  | store i arguments =>
      obtain ⟨hlinked, halike⟩ := Act.after_alike (a := .store i arguments) hs.linked nofun nofun
      exact hs.of_alike hlinked halike (Act.nextId_after nofun nofun)
  | write e name v =>
      obtain ⟨hlinked, halike⟩ := Act.after_alike (a := .write e name v) hs.linked nofun nofun
      exact hs.of_alike hlinked halike (Act.nextId_after nofun nofun)
  | handOut e v =>
      obtain ⟨hlinked, halike⟩ := Act.after_alike (a := .handOut e v) hs.linked nofun nofun
      exact hs.of_alike hlinked halike (Act.nextId_after nofun nofun)

end LiveTemplate
