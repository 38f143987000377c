import LiveTemplate.Proofs.Instance.Holes

/-!
# A new instance is a bound copy of its template

The copies of the nodes of static trees are numbered in document order, like the nodes themselves,
so the copy of the node at place `k` is the `k`-th node behind the fragment of the instance.
`Copied` says what has become of every copy when its markers are bound.

`instantiate_copied` holds in every session: the fragment shows the bound static trees, and the
parts stand at their holes, each on the copy of its own element.  Which of the parts are one is said
by `instantiate_bound`: those that stand for the same name on the same element, and no others.
-/

namespace LiveTemplate

set_option autoImplicit false

/-- What stands in the place of a tree at a node: the ends of its range if it marks one. -/
def Tree.standIn (m : Markers) (ends : NodeId → NodeRange) (n : NodeId) : Tree → List NodeId
  | .leaf _ => [n]
  | .element e _ => if m.opens e then [(ends n).start, (ends n).stop] else [n]

theorem Tree.standIn_element (m : Markers) (ends : NodeId → NodeRange) (n : NodeId) (e : Element)
    (children : List Tree) : (Tree.element e children).standIn m ends n =
      if m.opens e then [(ends n).start, (ends n).stop] else [n] := rfl

namespace Forest

mutual
/-- The node `n` is the bound copy of a tree whose nodes are numbered up to `stop`. -/
def Copied (f : Forest) (m : Markers) (ends : NodeId → NodeRange) :
    Tree → NodeId → NodeId → Prop
  | .leaf l, n, stop => f.kind? n = some (.leaf l) ∧ f.children n = [] ∧ stop = n + 1
  | .element e children, n, stop =>
    f.kind? n = some (.element (m.cleared e)) ∧
      (m.opens e = true → f.kind? (ends n).start = some (.leaf .sentinel) ∧
        f.kind? (ends n).stop = some (.leaf .sentinel)) ∧
      CopiedAll f m ends children (f.children n) (n + 1) stop

/-- The nodes are what stands in the places of the trees, whose copies are numbered from `first` up
to `stop`. -/
def CopiedAll (f : Forest) (m : Markers) (ends : NodeId → NodeRange) :
    List Tree → List NodeId → NodeId → NodeId → Prop
  | [], ns, first, stop => ns = [] ∧ stop = first
  | t :: rest, ns, first, stop =>
    ∃ mid others, ns = t.standIn m ends first ++ others ∧ Copied f m ends t first mid ∧
      CopiedAll f m ends rest others mid stop
end

variable {f : Forest} {m : Markers} {ends : NodeId → NodeRange}

mutual
theorem Copied.stop_eq : ∀ {t : Tree} {n stop : NodeId}, Copied f m ends t n stop →
    stop = n + t.size
  | .leaf _, _, _, h => h.2.2
  | .element _ children, n, stop, h => by
      have hbelow : CopiedAll f m ends children (f.children n) (n + 1) stop := h.2.2
      rw [hbelow.stop_eq, Nat.add_assoc]
      rfl

theorem CopiedAll.stop_eq : ∀ {ts : List Tree} {ns : List NodeId} {first stop : NodeId},
    CopiedAll f m ends ts ns first stop → stop = first + Tree.sizeAll ts
  | [], _, _, _, h => h.2
  | t :: rest, _, first, stop, h => by
      obtain ⟨mid, others, -, hfirst, hrest⟩ := h
      rw [hrest.stop_eq, hfirst.stop_eq, Nat.add_assoc]
      rfl
end

mutual
/-- The nodes of a planted tree are as many as those of the tree. -/
theorem Stand.stop_eq : ∀ {t : Tree} {n stop : NodeId}, Stand f t n stop → stop = n + t.size
  | .leaf _, _, _, h => h.2.2
  | .element _ children, n, stop, h => by
      have hbelow : StandAll f children (f.children n) (n + 1) stop := h.2
      rw [hbelow.stop_eq, Nat.add_assoc]
      rfl

theorem StandAll.stop_eq : ∀ {ts : List Tree} {ns : List NodeId} {first stop : NodeId},
    StandAll f ts ns first stop → stop = first + Tree.sizeAll ts
  | [], _, _, _, h => h.2
  | t :: rest, _, first, stop, h => by
      obtain ⟨mid, others, -, hfirst, hrest⟩ := h
      rw [hrest.stop_eq, hfirst.stop_eq, Nat.add_assoc]
      rfl
end

/-! ## Reading copies back -/

mutual
/-- In the place of a copy the bound tree is read. -/
theorem Copied.trees_eq : ∀ {t : Tree} {n stop : NodeId} {depth : Nat},
    Copied f m ends t n stop → stop ≤ n + depth →
    (t.standIn m ends n).flatMap (f.treesWithin depth) = t.bound m
  | t, n, stop, 0, h, hdepth => by
      have hlt : n < stop := h.stop_eq ▸ Nat.lt_add_of_pos_right t.size_pos
      exact absurd hlt (Nat.not_lt.mpr hdepth)
  | .leaf l, n, stop, depth + 1, h, _ => by
      show (f.treesWithin (depth + 1) n) ++ [] = [.leaf l]
      rw [treesWithin_leaf h.1, List.append_nil]
  | .element e children, n, stop, depth + 1, h, hdepth => by
      rw [Tree.standIn_element, Tree.bound]
      cases hopens : m.opens e with
      | true =>
          obtain ⟨hstart, hstop⟩ := h.2.1 hopens
          rw [if_pos rfl, if_pos rfl, List.flatMap_cons, List.flatMap_singleton,
            treesWithin_leaf hstart, treesWithin_leaf hstop]
          rfl
      | false =>
          have hbelow : CopiedAll f m ends children (f.children n) (n + 1) stop := h.2.2
          have hdepth' : stop ≤ n + 1 + depth := by rwa [Nat.add_assoc, Nat.add_comm 1]
          rw [if_neg Bool.false_ne_true, if_neg Bool.false_ne_true, List.flatMap_singleton,
            treesWithin_element h.1, hbelow.trees_eq hdepth']

theorem CopiedAll.trees_eq : ∀ {ts : List Tree} {ns : List NodeId} {first stop : NodeId}
    {depth : Nat}, CopiedAll f m ends ts ns first stop → stop ≤ first + depth →
    ns.flatMap (f.treesWithin depth) = Tree.boundAll m ts
  | [], _, _, _, _, h, _ => by
      rw [h.1]
      rfl
  | t :: rest, _, first, stop, depth, h, hdepth => by
      obtain ⟨mid, others, rfl, hfirst, hrest⟩ := h
      have hle : mid ≤ stop := hrest.stop_eq ▸ Nat.le_add_right _ _
      have hmid : first ≤ mid := hfirst.stop_eq ▸ Nat.le_add_right _ _
      rw [List.flatMap_append, hfirst.trees_eq (Nat.le_trans hle hdepth),
        hrest.trees_eq (Nat.le_trans hdepth (Nat.add_le_add_right hmid depth))]
      rfl
end

end Forest

open Forest

/-! ## Binding planted trees -/

section Bound

variable {m : Markers} {f g made : Forest} {ranged : NodeId → Option NodeRange}
  {first n : NodeId} {e : Element}

/-- The range that takes the place of a node, if there is one. -/
def endsOf (ranged : NodeId → Option NodeRange) (n : NodeId) : NodeRange :=
  (ranged n).getD ⟨n, n⟩

/-- Exactly the elements that give way to a range have one. -/
theorem ranged_isSome_eq (hbound : Edit.Bound m g made (g.marked m first) ranged)
    (he : g.element? n = some e) (hn : first ≤ n) : (ranged n).isSome = m.opens e := by
  rw [ranged_isSome_eq_marksRange hbound he hn, ← m.has_cleared, Attributes.has_eq_isSome_get?]
  rfl

theorem ranged_eq_some (hbound : Edit.Bound m g made (g.marked m first) ranged)
    (he : g.element? n = some e) (hn : first ≤ n) (hopens : m.opens e = true) :
    ranged n = some (endsOf ranged n) := by
  have hsome := ranged_isSome_eq hbound he hn
  rw [hopens] at hsome
  obtain ⟨r, hr⟩ := Option.isSome_iff_exists.mp hsome
  unfold endsOf
  rw [hr]
  rfl

theorem ranged_eq_none (hbound : Edit.Bound m g made (g.marked m first) ranged)
    (he : g.element? n = some e) (hn : first ≤ n) (hopens : m.opens e = false) :
    ranged n = none := by
  have hsome := ranged_isSome_eq hbound he hn
  rw [hopens, Option.isSome_eq_false_iff] at hsome
  exact Option.isNone_iff_eq_none.mp hsome

theorem ranged_of_leaf (hbound : Edit.Bound m g made (g.marked m first) ranged) {l : Leaf}
    (hkind : g.kind? n = some (.leaf l)) : ranged n = none :=
  hbound.unranged (not_mem_marked_of_leaf hkind)

/-- The range of an element stands in its place. -/
theorem inPlace_eq_standIn (hbound : Edit.Bound m g made (g.marked m first) ranged)
    {t : Tree} {stop : NodeId}
    (hstand : Stand g t n stop) (hn : first ≤ n) :
    Edit.inPlace ranged n = t.standIn m (endsOf ranged) n := by
  unfold Edit.inPlace
  cases t with
  | leaf l =>
      rw [ranged_of_leaf hbound hstand.1]
      rfl
  | element e children =>
      have he := Edit.element?_of_kind? hstand.1
      rw [Tree.standIn_element]
      cases hopens : m.opens e with
      | true =>
          rw [ranged_eq_some hbound he hn hopens]
          rfl
      | false =>
          rw [ranged_eq_none hbound he hn hopens]
          rfl

mutual
/-- Where a tree was planted, its bound copy stands in every forest that has the same nodes. -/
theorem copied_of_stand (hbound : Edit.Bound m g made (g.marked m first) ranged) {k : NodeId}
    (hagree : AgreeFrom k f made) (hk : k ≤ first) : ∀ {t : Tree} {n stop : NodeId},
    Stand g t n stop → first ≤ n → Copied f m (endsOf ranged) t n stop
  | .leaf l, n, stop, hstand, hn => by
      obtain ⟨hkind, hchildren, hstop⟩ := hstand
      have hkn := Nat.le_trans hk hn
      refine ⟨?_, ?_, hstop⟩
      · rw [kind?, hagree.node?_eq n hkn, ← kind?,
          hbound.kind?_kept (lt_nextId_of_kind? hkind) (not_mem_marked_of_leaf hkind), hkind]
      · rw [hagree.children_eq hkn, hbound.children_eq, hchildren]
        rfl
  | .element e children, n, stop, hstand, hn => by
      have he := Edit.element?_of_kind? hstand.1
      have hbelow : StandAll g children (g.children n) (n + 1) stop := hstand.2
      have hkn := Nat.le_trans hk hn
      refine ⟨?_, fun hopens => ?_, ?_⟩
      · rw [kind?, hagree.node?_eq n hkn, ← kind?]
        exact Edit.kind?_of_element? (element?_made hbound he hn)
      · have hr := ranged_eq_some hbound he hn hopens
        obtain ⟨-, hnew, hstop, -, hstartKind, hstopKind⟩ := hbound.fresh n _ hr
        have hlt := lt_nextId_of_kind? hstand.1
        have hkstart : k ≤ (endsOf ranged n).start :=
          Nat.le_trans hkn (Nat.le_trans (Nat.le_of_lt hlt) hnew)
        have hkstop : k ≤ (endsOf ranged n).stop := by
          rw [hstop]
          exact Nat.le_succ_of_le hkstart
        rw [kind?, hagree.node?_eq _ hkstart, kind?, hagree.node?_eq _ hkstop]
        exact ⟨hstartKind, hstopKind⟩
      · rw [hagree.children_eq hkn, hbound.children_eq]
        exact copiedAll_of_standAll hbound hagree hk hbelow (Nat.le_succ_of_le hn)

theorem copiedAll_of_standAll (hbound : Edit.Bound m g made (g.marked m first) ranged) {k : NodeId}
    (hagree : AgreeFrom k f made) (hk : k ≤ first) :
    ∀ {ts : List Tree} {ns : List NodeId} {n stop : NodeId}, StandAll g ts ns n stop →
    first ≤ n → CopiedAll f m (endsOf ranged) ts (ns.flatMap (Edit.inPlace ranged)) n stop
  | [], _, _, _, hstand, _ => by
      rw [hstand.1]
      exact ⟨rfl, hstand.2⟩
  | t :: ts, _, n, stop, hstand, hn => by
      obtain ⟨mid, others, rfl, htree, hrest⟩ := hstand
      refine ⟨mid, others.flatMap (Edit.inPlace ranged), ?_,
        copied_of_stand hbound hagree hk htree hn,
        copiedAll_of_standAll hbound hagree hk hrest
          (Nat.le_trans hn (Nat.le_of_lt htree.lt))⟩
      rw [List.flatMap_cons, inPlace_eq_standIn hbound htree hn]
end

/-! ## The sites are the holes -/

theorem boundSites_eq_holesOn (hbound : Edit.Bound m g made (g.marked m first) ranged) {k : Nat}
    (he : g.element? (first + k) = some e) : Edit.boundSites m g ranged (first + k)
      = (m.holesOn k e).map (Hole.site first (endsOf ranged)) := by
  have hn : first ≤ first + k := Nat.le_add_right _ _
  unfold Edit.boundSites Markers.holesOn
  rw [noted_eq he, List.map_append, List.map_map]
  congr 1
  cases hopens : m.opens e with
  | true =>
      rw [ranged_eq_some hbound he hn hopens]
      rfl
  | false =>
      rw [ranged_eq_none hbound he hn hopens]
      rfl

mutual
/-- The nodes of a planted tree are bound to its holes. -/
theorem sitesIn_eq_holes (hbound : Edit.Bound m g made (g.marked m first) ranged) :
    ∀ {t : Tree} {k : Nat} {stop : NodeId}, Stand g t (first + k) stop →
      sitesIn m g ranged (first + k) stop
        = (t.holes m k).map (Hole.site first (endsOf ranged))
  | .leaf l, k, stop, hstand => by
      obtain ⟨hkind, -, rfl⟩ := hstand
      rw [sitesIn_succ, boundSites_eq_nil hbound (Nat.le_add_right _ _)
        (not_mem_marked_of_leaf hkind)]
      rfl
  | .element e children, k, stop, hstand => by
      have he := Edit.element?_of_kind? hstand.1
      have hbelow : StandAll g children (g.children (first + k)) (first + (k + 1)) stop := hstand.2
      have hle : first + k ≤ first + (k + 1) := Nat.le_succ _
      have hown : sitesIn m g ranged (first + k) (first + (k + 1)) = _ := sitesIn_succ
      unfold Tree.holes
      rw [sitesIn_append hle hbelow.le, hown, boundSites_eq_holesOn hbound he,
        sitesIn_eq_holesAll hbound hbelow, List.map_append]

theorem sitesIn_eq_holesAll (hbound : Edit.Bound m g made (g.marked m first) ranged) :
    ∀ {ts : List Tree} {ns : List NodeId} {k : Nat} {stop : NodeId},
      StandAll g ts ns (first + k) stop → sitesIn m g ranged (first + k) stop
        = (Tree.holesAll m k ts).map (Hole.site first (endsOf ranged))
  | [], _, k, stop, hstand => by
      rw [hstand.2, sitesIn_self]
      rfl
  | t :: ts, _, k, stop, hstand => by
      obtain ⟨mid, others, -, htree, hrest⟩ := hstand
      have hmid : mid = first + (k + t.size) := by
        rw [htree.stop_eq, Nat.add_assoc]
      have hlt := Nat.le_of_lt htree.lt
      unfold Tree.holesAll
      rw [sitesIn_append hlt hrest.le, sitesIn_eq_holes hbound htree, List.map_append]
      rw [hmid] at hrest ⊢
      rw [sitesIn_eq_holesAll hbound hrest]
end

/-- Different nodes have different ranges. -/
theorem endsOf_injective {places : List NodeId} (hbound : Edit.Bound m g made places ranged) :
    Function.Injective (endsOf ranged) := by
  intro n n' heq
  unfold endsOf at heq
  cases hr : ranged n with
  | none =>
      cases hr' : ranged n' with
      | none =>
          rw [hr, hr'] at heq
          exact congrArg NodeRange.start heq
      | some r =>
          have hstop := (hbound.fresh n' r hr').2.2.1
          rw [hr, hr'] at heq
          change NodeRange.mk n n = r at heq
          subst heq
          exact absurd hstop (Nat.ne_of_lt (Nat.lt_succ_self n))
  | some r =>
      have hstop := (hbound.fresh n r hr).2.2.1
      cases hr' : ranged n' with
      | none =>
          rw [hr, hr'] at heq
          change r = NodeRange.mk n' n' at heq
          subst heq
          exact absurd hstop (Nat.ne_of_lt (Nat.lt_succ_self n'))
      | some r' =>
          rw [hr, hr'] at heq
          change r = r' at heq
          subst heq
          by_contra hne
          have hlt := or_self_iff.mp (hbound.apart n n' r r hr hr' hne)
          rw [hstop] at hlt
          exact absurd hlt (Nat.not_lt.mpr (Nat.le_succ _))

end Bound

/-! ## New instances -/

/-- Realizing trees in any forest binds a copy of them. -/
theorem realize_copied (f : Forest) (m : Markers) (ts : List Tree) :
    ∃ ends parts f', Edit.realize m ts f = .ok (f.nextId, parts) f' ∧
      PartList.sites parts = (Tree.holesAll m 0 ts).map (Hole.site (f.nextId + 1) ends) ∧
      PartList.Numbered f.partsMade f'.partsMade parts ∧
      f'.CopiedAll m ends ts (f'.children f.nextId) (f.nextId + 1)
        (f.nextId + 1 + Tree.sizeAll ts) ∧
      f'.treesBelow f.nextId = Tree.boundAll m ts ∧ Function.Injective ends := by
  obtain ⟨g, made, ranged, parts, f', hrun, agree, hstand, hbound, hsites, hnumbered⟩ :=
    realize_agrees f m ts
  rw [sitesIn_eq_holesAll (k := 0) hbound hstand] at hsites
  have hcopied := copiedAll_of_standAll hbound agree (Nat.le_succ _) hstand (Nat.le_refl _)
  rw [← hbound.children_eq, ← agree.children_eq (Nat.le_refl _), hstand.stop_eq] at hcopied
  refine ⟨endsOf ranged, parts, f', hrun, hsites, hnumbered, hcopied, ?_, endsOf_injective hbound⟩
  refine hcopied.trees_eq ?_
  have hsize : f'.nodes.size = made.nextId := agree.nextId_eq
  have hgrown := hbound.nextId_le
  rw [hstand.stop_eq, ← hsize] at hgrown
  exact Nat.le_trans hgrown (Nat.le_add_left _ _)

/-- An instance is a bound copy of trees: `ends` says which range takes the place of an element. -/
structure Instance.BoundCopy (x : Instance) (m : Markers) (ts : List Tree) (f : Forest)
    (ends : NodeId → NodeRange) : Prop where
  shown : f.treesBelow x.block.home = Tree.boundAll m ts
  spared : ∀ e ∈ Tree.elementsOfAll (f.treesBelow x.block.home), m.Spares e
  copied : f.CopiedAll m ends ts (f.children x.block.home) (x.block.home + 1)
    (x.block.home + 1 + Tree.sizeAll ts)
  sites_eq : x.sites = (Tree.holesAll m 0 ts).map (Hole.site (x.block.home + 1) ends)
  ends_injective : Function.Injective ends

/-- The parts of an instance have been made from `lo` up to `top`, and two entries are the same part
exactly if they are one entry, or the same name on the same element of the trees. -/
structure Instance.SharesByName (x : Instance) (m : Markers) (ts : List Tree) (lo top : PartId) :
    Prop where
  made : ∀ p ∈ x.parts, lo ≤ p.id ∧ p.id < top
  same_iff : ∀ i j (hi : i < x.parts.length) (hj : j < x.parts.length),
    x.parts[i].id = x.parts[j].id ↔ i = j ∨ ∃ k name,
      (Tree.holesAll m 0 ts)[i]? = some (.named k name) ∧
      (Tree.holesAll m 0 ts)[j]? = some (.named k name)

/-- A new instance that is not filled is a bound copy of the static trees, and it has one part for
every site. -/
theorem Live.instantiate_copied (s : Session) (t : TemplateId) :
    ∃ s' ends, Live.instantiate t none s = .ok s.instances.size s' ∧
      (s'.instanceAt s.instances.size).BoundCopy (s.templateAt t).markers (s.staticTrees t)
        s'.forest ends ∧
      PartList.Numbered s.forest.partsMade s'.forest.partsMade
        (s'.instanceAt s.instances.size).parts := by
  obtain ⟨ends, parts, f', hrun, hsites, hnumbered, hcopied, hshown, hends⟩ :=
    realize_copied s.forest (s.templateAt t).markers (s.staticTrees t)
  refine ⟨_, ends, instantiate_eq hrun none, ?_⟩
  rw [Session.instanceAt_created_self]
  refine ⟨⟨hshown, fun e he => ?_, hcopied, hsites, hends⟩, hnumbered⟩
  change e ∈ Tree.elementsOfAll (f'.treesBelow s.forest.nextId) at he
  rw [hshown] at he
  exact Tree.spares_boundAll _ he

/-- The parts of a bound copy are one where their holes are one. -/
theorem Instance.BoundCopy.sharesByName {x : Instance} {m : Markers} {ts : List Tree} {f : Forest}
    {ends : NodeId → NodeRange} {lo top : PartId} (h : x.BoundCopy m ts f ends)
    (hnumbered : PartList.Numbered lo top x.parts) : x.SharesByName m ts lo top where
  made p hp := ⟨hnumbered.le_id p hp, hnumbered.id_lt p hp⟩
  same_iff := by
    intro i j hi hj
    have hlength : x.parts.length = (Tree.holesAll m 0 ts).length := by
      rw [← List.length_map (·.site), ← PartList.sites, ← Instance.sites, h.sites_eq,
        List.length_map]
    have hsite : ∀ k (hk : k < x.parts.length) (hk' : k < (Tree.holesAll m 0 ts).length),
        x.parts[k].site = (Tree.holesAll m 0 ts)[k].site (x.block.home + 1) ends := by
      intro k hk hk'
      have hentry : x.sites[k]? = some x.parts[k].site := by
        rw [Instance.sites, PartList.sites, List.getElem?_map, List.getElem?_eq_getElem hk]
        rfl
      rw [h.sites_eq, List.getElem?_map, List.getElem?_eq_getElem hk'] at hentry
      exact (Option.some.inj hentry).symm
    have hi' := hlength ▸ hi
    have hj' := hlength ▸ hj
    rw [hnumbered.id_eq_iff _ (List.getElem_mem hi) _ (List.getElem_mem hj), hsite i hi hi',
      hsite j hj hj', (Hole.site_injective h.ends_injective).eq_iff,
      Tree.holesAll_getElem_eq_iff m ts hi' hj', List.getElem?_eq_getElem hi',
      List.getElem?_eq_getElem hj']
    simp only [Option.some.injEq]

/-- In every session an instance that is made of a template, without anything to fill it with, is a
bound copy of the static trees.  Its fragment shows the trees with nothing but their markers
changed, and its parts stand at the holes of the trees, in document order.  They are new parts, and
a name that is repeated in the marker of one element has one part. -/
theorem Live.instantiate_bound (s : Session) (t : TemplateId) :
    ∃ s' ends, Live.instantiate t none s = .ok s.instances.size s' ∧
      (s'.instanceAt s.instances.size).BoundCopy (s.templateAt t).markers (s.staticTrees t)
        s'.forest ends ∧
      (s'.instanceAt s.instances.size).SharesByName (s.templateAt t).markers (s.staticTrees t)
        s.forest.partsMade s'.forest.partsMade := by
  obtain ⟨s', ends, hrun, hcopy, hnumbered⟩ := Live.instantiate_copied s t
  exact ⟨s', ends, hrun, hcopy, hcopy.sharesByName hnumbered⟩

/-- The holes of a paragraph that names its class twice and itself once, around an element that
carries both markers and has a marked element below it. -/
example : Tree.holesAll {} 0
    [.element { name := "p", attributes := [("data-dtpp-attributes", "class class ")] }
      [.element { name := "b", attributes :=
          [("data-dtpp-attributes", "id"), ("data-dtpp-nodes", "")] }
        [.element { name := "i", attributes := [("data-dtpp-attributes", "id")] } []]]]
    = [.named 0 "class".toList, .named 0 "class".toList, .named 0 [], .named 1 "id".toList,
      .range 1, .named 2 "id".toList] := by
  decide +kernel

end LiveTemplate
