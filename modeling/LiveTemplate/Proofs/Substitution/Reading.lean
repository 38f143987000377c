import LiveTemplate.Proofs.Substitution.Numbering

/-!
# Reading a filled instance back

Where a planted forest has a tree, a filled instance has what substituting the values makes of it.
`Substituted` says so node by node, and `same_substitute` for whole trees.  So an instance that was
made and filled any number of times shows its template with the last values substituted, and
nothing is left of the earlier ones: `instantiateAll_eq_substitute`.
-/

namespace LiveTemplate

set_option autoImplicit false

open Forest

/-! ## Trees at single nodes -/

section Within

variable {f : Forest} {n : NodeId}

theorem treesWithin_leaf {l : Leaf} (h : f.kind? n = some (.leaf l)) (depth : Nat) :
    f.treesWithin (depth + 1) n = [.leaf l] := by
  unfold treesWithin
  unfold kind? at h
  cases hnode : f.node? n with
  | none =>
      rw [hnode] at h
      exact nomatch h
  | some x =>
      rw [hnode] at h
      have hkind : x.kind = .leaf l := Option.some.inj h
      dsimp only
      rw [hkind]

theorem treesWithin_element {e : Element} (h : f.kind? n = some (.element e)) (depth : Nat) :
    f.treesWithin (depth + 1) n
      = [.element e ((f.children n).flatMap (f.treesWithin depth))] := by
  unfold treesWithin children
  unfold kind? at h
  cases hnode : f.node? n with
  | none =>
      rw [hnode] at h
      exact nomatch h
  | some x =>
      rw [hnode] at h
      have hkind : x.kind = .element e := Option.some.inj h
      dsimp only
      rw [hkind]
      rfl

theorem treesWithin_text {t : String} (h : f.text? n = some t) (depth : Nat) :
    f.treesWithin (depth + 1) n = [.leaf (.text t)] := by
  refine treesWithin_leaf ?_ depth
  unfold text? at h
  rw [leaf?_eq] at h
  cases hkind : f.kind? n with
  | none =>
      rw [hkind] at h
      exact nomatch h
  | some kind =>
      rw [hkind] at h
      cases kind with
      | fragment => exact nomatch h
      | element e => exact nomatch h
      | leaf l =>
          cases l with
          | text s =>
              obtain rfl := Option.some.inj h
              rfl
          | _ => exact nomatch h

/-- Nodes that have texts are read back as these. -/
theorem flatMap_treesWithin_texts {ns : List NodeId} {ts : List String}
    (h : ns.map f.text? = ts.map some) (depth : Nat) :
    ns.flatMap (f.treesWithin (depth + 1)) = (ts.map Leaf.text).map .leaf := by
  induction ns generalizing ts with
  | nil =>
      obtain rfl : ts = [] := List.map_eq_nil_iff.mp h.symm
      rfl
  | cons n ns ih =>
      cases ts with
      | nil => exact nomatch h
      | cons t ts =>
          rw [List.map_cons, List.map_cons, List.cons.injEq] at h
          rw [List.flatMap_cons, treesWithin_text h.1, ih h.2]
          rfl

end Within

/-! ## Node by node -/

/-- What stands in the place of a node of the planted trees. -/
def shownAt (ranged : NodeId → Option NodeRange) (content : NodeId → List NodeId) (n : NodeId) :
    List NodeId :=
  (Edit.inPlace ranged n).flatMap fun k => k :: content k

/-- In the place of every node of the planted forest `g` the forest `f` shows what the values make
of it. -/
structure Substituted (m : Markers) (value : Nat → Value) (g f : Forest)
    (ranged : NodeId → Option NodeRange) (content : NodeId → List NodeId) (first : NodeId) :
    Prop where
  children_eq : ∀ q, f.children q = (g.children q).flatMap (shownAt ranged content)
  leaf : ∀ n l, g.kind? n = some (.leaf l) →
    shownAt ranged content n = [n] ∧ f.kind? n = some (.leaf l)
  element : ∀ n e, first ≤ n → g.element? n = some e → e.attributes.has m.nodes = false →
    shownAt ranged content n = [n] ∧ ∃ as : Attributes,
      f.kind? n = some (.element { e with attributes := as }) ∧ ∀ name, as.get? name
        = (m.filled value (sitesIn m g ranged first n).length e).get? name
  range : ∀ n e, first ≤ n → g.element? n = some e → e.attributes.has m.nodes = true →
    ∀ depth, (shownAt ranged content n).flatMap (f.treesWithin (depth + 1)) =
      (rangeLeaves (value ((sitesIn m g ranged first n).length
        + (m.namesOn e).length)).texts).map .leaf

section Whole

variable {m : Markers} {value : Nat → Value} {old g made f : Forest}
  {ranged : NodeId → Option NodeRange} {content : NodeId → List NodeId} {first : NodeId}

/-- Trees that are leaves are the same when they are equal. -/
theorem same_leaves (ls : List Leaf) :
    List.Forall₂ Tree.Same (ls.map Tree.leaf) (ls.map Tree.leaf) := by
  induction ls with
  | nil => exact .nil
  | cons l ls ih => exact .cons (.leaf l) ih

mutual
/-- In the place of a tree stands what substituting the values makes of it. -/
theorem same_substitute (hm : m.attributes ≠ m.nodes)
    (hbound : Edit.Bound m g made (g.marked m first) ranged)
    (h : Substituted m value g f ranged content first) :
    ∀ {t : Tree} {n stop : NodeId} {depth : Nat}, Stand g t n stop → first ≤ n →
      stop ≤ n + depth → List.Forall₂ Tree.Same
        ((shownAt ranged content n).flatMap (f.treesWithin depth))
        (t.substitute m value (sitesIn m g ranged first n).length)
  | t, n, stop, 0, hstand, _, hdepth => absurd hstand.lt (Nat.not_lt.mpr hdepth)
  | .leaf l, n, stop, depth + 1, hstand, _, _ => by
      obtain ⟨hshown, hkind⟩ := h.leaf n l hstand.1
      rw [hshown, List.flatMap_singleton, treesWithin_leaf hkind]
      exact same_leaves [l]
  | .element e ts, n, stop, depth + 1, hstand, hn, hdepth => by
      have he := Edit.element?_of_kind? hstand.1
      unfold Tree.substitute
      cases hmarks : e.attributes.has m.nodes with
      | true =>
          rw [if_pos rfl, h.range n e hn he hmarks depth]
          exact same_leaves _
      | false =>
          obtain ⟨hshown, as, hkind, hattributes⟩ := h.element n e hn he hmarks
          have hstop : stop ≤ n + 1 + depth := by rwa [Nat.add_assoc, Nat.add_comm 1]
          have hbelow := same_substituteAll hm hbound h hstand.2 (Nat.le_succ_of_le hn) hstop
          have hindex : (sitesIn m g ranged first (n + 1)).length
              = (sitesIn m g ranged first n).length + m.countOn e := by
            rw [sitesIn_append hn (Nat.le_succ n), sitesIn_succ, List.length_append,
              length_boundSites hm hbound he hn]
          rw [if_neg Bool.false_ne_true, hshown, List.flatMap_singleton, treesWithin_element hkind,
            h.children_eq, List.flatMap_assoc, ← hindex]
          exact .cons (.element (e := { e with attributes := m.filled value _ e })
            hattributes hbelow) .nil

theorem same_substituteAll (hm : m.attributes ≠ m.nodes)
    (hbound : Edit.Bound m g made (g.marked m first) ranged)
    (h : Substituted m value g f ranged content first) :
    ∀ {ts : List Tree} {ns : List NodeId} {n stop : NodeId} {depth : Nat},
      StandAll g ts ns n stop → first ≤ n → stop ≤ n + depth → List.Forall₂ Tree.Same
        (ns.flatMap fun n => (shownAt ranged content n).flatMap (f.treesWithin depth))
        (Tree.substituteAll m value (sitesIn m g ranged first n).length ts)
  | [], ns, n, stop, depth, hstand, _, _ => by
      rw [hstand.1]
      exact .nil
  | t :: ts, ns, n, stop, depth, hstand, hn, hdepth => by
      obtain ⟨mid, others, rfl, htree, hrest⟩ := hstand
      have hmid := Nat.le_of_lt htree.lt
      have hindex : (sitesIn m g ranged first mid).length
          = (sitesIn m g ranged first n).length + m.count [t] := by
        rw [sitesIn_append hn hmid, List.length_append, length_sitesIn hm hbound htree hn]
      have hfirst := same_substitute hm hbound h htree hn (Nat.le_trans hrest.le hdepth)
      have hothers := same_substituteAll hm hbound h hrest (Nat.le_trans hn hmid)
        (Nat.le_trans hdepth (Nat.add_le_add_right hmid depth))
      rw [hindex] at hothers
      rw [List.flatMap_cons]
      exact List.rel_append hfirst hothers
end

/-! ## What filling makes of the planted trees -/

/-- A filled instance shows what the values make of every node. -/
theorem substituted_of_holds (hm : m.attributes ≠ m.nodes)
    (hbound : Edit.Bound m g made (g.marked m first) ranged)
    (hmade : Realized old made (rangesOf (sitesIn m g ranged first g.nextId)))
    (h : Holds made (sitesIn m g ranged first g.nextId)
      (fun p => lastFor value p 0 (sitesIn m g ranged first g.nextId)) f) :
    ∃ content, Substituted m value g f ranged content first := by
  obtain ⟨content, hchildren, htexts, hstart⟩ := h.content
  have hempty : ∀ n, n < g.nextId → content n = [] := by
    intro n hn
    by_contra hne
    obtain ⟨r, hr, rfl⟩ := hstart n hne
    obtain ⟨k, -, hk⟩ := mem_sitesIn.mp hr
    exact absurd hn (Nat.not_lt.mpr (hbound.fresh k r (range_mem_boundSites hk)).2.1)
  have hshown : ∀ n, n < g.nextId → ranged n = none → shownAt ranged content n = [n] := by
    intro n hn hr
    unfold shownAt Edit.inPlace
    rw [hr]
    show n :: (content n ++ []) = [n]
    rw [hempty n hn]
    rfl
  refine ⟨content, ?_, ?_, ?_, ?_⟩
  · intro q
    rw [hchildren, hbound.children_eq, List.flatMap_assoc]
    rfl
  · intro n l hkind
    have hn := lt_nextId_of_kind? hkind
    have hunmarked : n ∉ g.marked m first := not_mem_marked_of_leaf hkind
    have hmadeKind : made.kind? n = some (.leaf l) := by
      rw [hbound.kind?_eq n hn, if_neg hunmarked, hkind]
    refine ⟨hshown n hn (hbound.unranged hunmarked), ?_⟩
    rw [h.other n (lt_nextId_of_kind? hmadeKind) (by rw [element?_eq, hmadeKind]; rfl), hmadeKind]
  · intro n e hle he hmarks
    have hn := lt_nextId_of_kind? (Edit.kind?_of_element? he)
    have hnone : ranged n = none := by
      have hsome := ranged_isSome_iff hm hbound he hle
      rw [hmarks, Option.isSome_eq_false_iff] at hsome
      exact Option.isNone_iff_eq_none.mp hsome
    obtain ⟨as, has, hattributes⟩ := h.element n _ (element?_made hbound he hle)
    refine ⟨hshown n hn hnone, as, has, fun name => ?_⟩
    rw [hattributes, lastFor_attribute he hle, m.get?_filled]
    cases lastNamed value name (sitesIn m g ranged first n).length (m.namesOn e) <;> rfl
  · intro n e hle he hmarks depth
    have hn := lt_nextId_of_kind? (Edit.kind?_of_element? he)
    obtain ⟨r, hr⟩ : ∃ r, ranged n = some r := by
      rw [← Option.isSome_iff_exists, ranged_isSome_iff hm hbound he hle, hmarks]
    have hpart : .range r ∈ sitesIn m g ranged first g.nextId := range_mem_sitesIn hle hn hr
    obtain ⟨-, -, -, -, hstartKind, hstopKind⟩ := hbound.fresh n r hr
    have hend : ∀ k, made.kind? k = some (.leaf .sentinel) →
        f.treesWithin (depth + 1) k = [.leaf .sentinel] := by
      intro k hk
      refine treesWithin_leaf ?_ depth
      rw [h.other k (lt_nextId_of_kind? hk) (by rw [element?_eq, hk]; rfl), hk]
    have hstop : content r.stop = [] := by
      by_contra hne
      obtain ⟨r', hr', heq⟩ := hstart _ hne
      exact (hmade.ranges_apart (mem_rangesOf.mpr hr') (mem_rangesOf.mpr hpart)).1 heq
    have hinside := htexts r hpart
    rw [lastFor_range he hle hbound hr] at hinside
    have hplace : shownAt ranged content n = r.start :: content r.start ++ [r.stop] := by
      unfold shownAt Edit.inPlace
      rw [hr]
      show (r.start :: content r.start) ++ ((r.stop :: content r.stop) ++ []) = _
      rw [hstop]
      rfl
    rw [hplace, List.flatMap_append, List.flatMap_cons, flatMap_treesWithin_texts hinside,
      List.flatMap_singleton, hend _ hstartKind, hend _ hstopKind]
    unfold rangeLeaves
    rw [List.map_append, List.map_cons]
    rfl

end Whole

/-- An instance that is made, and then filled any number of times, shows its template with the
values substituted that it was filled with last. -/
theorem instantiateAll_eq_substitute {s : Session} (hs : s.Sound) (t : TemplateId)
    (hm : (s.templateAt t).markers.attributes ≠ (s.templateAt t).markers.nodes)
    (first : List Value) (later : List (List Value))
    (hvalues : ∀ values ∈ first :: later, ∀ v ∈ values, v.IsData) : ∃ i s',
    Live.instantiateAll t first later s = .ok i s' ∧
      List.Forall₂ Tree.Same (s'.forest.treesBelow (s'.instanceAt i).block.home)
        (Tree.substituteAll (s.templateAt t).markers (valueAt (later.getLastD first)) 0
          (s.staticTrees t)) := by
  let m := (s.templateAt t).markers
  have hstand := (planted_plantFragment hs.linked (s.staticTrees t)).stand
  obtain ⟨ranged, parts, made, hrealize, hsites, -, hbound⟩ :=
    realize_bound hs.linked m (s.staticTrees t)
  obtain ⟨parts', made', hrealize', hmade⟩ := realize_ok hs.linked m (s.staticTrees t)
  rw [hrealize] at hrealize'
  cases hrealize'
  obtain ⟨s', hrun, hfilling⟩ := instantiateAll_ok hs hrealize hmade hvalues
  rw [hsites, flatMap_boundSites hbound] at hmade hfilling
  obtain ⟨content, hsubstituted⟩ := substituted_of_holds hm hbound hmade hfilling.holds
  refine ⟨_, s', hrun, ?_⟩
  have hdepth : (s.forest.plantFragment (s.staticTrees t)).nextId
      ≤ s.forest.nextId + 1 + s'.forest.nodes.size :=
    Nat.le_trans (Nat.le_trans hbound.nextId_le hfilling.holds.nextId_le) (Nat.le_add_left _ _)
  have hsame := same_substituteAll hm hbound hsubstituted hstand (Nat.le_refl _) hdepth
  rw [sitesIn_self] at hsame
  unfold treesBelow
  rw [hfilling.home_eq, hsubstituted.children_eq, List.flatMap_assoc]
  exact hsame

/-- The template of a paragraph whose class is named twice, around a range. -/
def paragraphTemplate : Session :=
  .ofTemplates
    [{ placeholders := 3, dialect := .html, markers := {}
       markup := "<p data-dtpp-attributes=\"class class\"><span data-dtpp-nodes=\"\"></span></p>"
       trees := [.element { name := "p", attributes := [("data-dtpp-attributes", "class class")] }
         [.element { name := "span", attributes := [("data-dtpp-nodes", "")] } []]] }]

/-- The paragraph is filled three times: what counts are the second class and the text of the last
time. -/
theorem instantiateAll_eq_substitute_paragraph :
    let m := (paragraphTemplate.templateAt 0).markers
    let first : List Value := [.text "a", .bool true, .list [.text "x", .null, .int 3]]
    let later : List (List Value) := [[.null], [.bool false, .text "b", .text "y"]]
    (paragraphTemplate.Sound ∧ m.attributes ≠ m.nodes ∧
      ∀ values ∈ first :: later, ∀ v ∈ values, v.IsData) ∧
    ∃ i s', Live.instantiateAll 0 first later paragraphTemplate = .ok i s' ∧
      List.Forall₂ Tree.Same (s'.forest.treesBelow (s'.instanceAt i).block.home)
        (Tree.substituteAll m (valueAt [.bool false, .text "b", .text "y"]) 0
          (paragraphTemplate.templateAt 0).trees) := by
  have hsound : paragraphTemplate.Sound := (Session.blank_ofTemplates _).sound
  have hstatic : paragraphTemplate.staticTrees 0 = (paragraphTemplate.templateAt 0).trees := rfl
  have hm : (paragraphTemplate.templateAt 0).markers.attributes
      ≠ (paragraphTemplate.templateAt 0).markers.nodes := by decide
  have hvalues : ∀ values ∈ [[.text "a", .bool true, .list [.text "x", .null, .int 3]], [.null],
      [.bool false, .text "b", .text "y"]], ∀ v ∈ values, Value.IsData v := by
    simp [Value.IsData, Value.AllData]
  have hfilled := instantiateAll_eq_substitute hsound 0 hm _ _ hvalues
  rw [hstatic] at hfilled
  exact ⟨⟨hsound, hm, hvalues⟩, hfilled⟩

end LiveTemplate
