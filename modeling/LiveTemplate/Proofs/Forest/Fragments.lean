import LiveTemplate.Proofs.Forest.Linked

/-!
# Inserting fragments

A fragment is never inserted as such: its children are, one behind the other.  In a linked forest
this succeeds wherever a node could be inserted, as long as the parent is none of these children,
and leaves the fragment empty.  The effect is `relinked_insertFragment`.

A list of nodes with fragments in it brings in what is in these (`Forest.brought`), except for nodes
that the list names by themselves, which stand where it names them.
-/

namespace LiveTemplate

set_option autoImplicit false

namespace Forest

variable {f : Forest} {n p : NodeId}

/-- A node that stands elsewhere is put at a position. -/
theorem relinked_insertNode {front back : List NodeId} (hf : f.Linked)
    (hp : f.children p = front ++ back) (hlt : p < f.nextId) (hout : n ∉ f.children p)
    (hnp : n ≠ p) (hn : n < f.nextId) (hfragment : f.isFragment n = false) :
    ∃ f', Edit.insertNode p front.length n f = .ok () f' ∧ Relinked f f' fun q =>
      if q = p then front ++ n :: back else (f.children q).filter (· ≠ n) := by
  have hdetached := relinked_detach hf n
  have hchildren : (f.detach n).children p = front ++ back := by
    rw [hdetached.children_eq, filter_ne_of_not_mem hout, hp]
  have hplace : front.length ≤ ((f.detach n).children p).length := by
    rw [hchildren, List.length_append]
    exact Nat.le_add_right _ _
  have halone : (f.detach n).parent? n = none := by
    rw [parent?_detach, if_pos rfl]
  refine ⟨(f.detach n).attach p front.length n, ?_, ?_⟩
  · have hmin : min front.length (f.children p).length = front.length := by
      rw [hp, List.length_append]
      exact Nat.min_eq_left (Nat.le_add_right _ _)
    have hparent : ¬ f.parent? n = some p := fun h => hout (hf.mem_children_iff.mpr h)
    unfold Edit.insertNode
    rw [bind_of_ok (get_ok f)]
    simp only [if_neg hnp, if_neg hparent, hmin]
    rw [bind_of_ok (detach_ok n f)]
    rfl
  · have hin := relinked_attach (p := p) hdetached.linked (by rwa [hdetached.nextId_eq])
      (by rwa [hdetached.nextId_eq]) hnp ((hdetached.isFragment_eq n).trans hfragment) halone hplace
    refine (hdetached.trans hin).congr fun q => ?_
    by_cases hq : q = p
    · rw [if_pos hq, if_pos hq, hq, hchildren, insertIdx_length_append]
    · rw [if_neg hq, if_neg hq, hdetached.children_eq]

/-- Nodes that stand elsewhere are put at consecutive positions. -/
theorem relinked_insertNodes {ns front back : List NodeId} (hf : f.Linked)
    (hp : f.children p = front ++ back) (hlt : p < f.nextId) (hnodup : ns.Nodup)
    (hns : ∀ n ∈ ns, n ∉ f.children p ∧ n ≠ p ∧ n < f.nextId ∧ f.isFragment n = false) :
    ∃ f', Edit.insertNodes p front.length ns f = .ok () f' ∧ Relinked f f' fun q =>
      if q = p then front ++ (ns ++ back) else (f.children q).filter (· ∉ ns) := by
  induction ns generalizing f front with
  | nil =>
      refine ⟨f, rfl, (Relinked.refl hf).congr fun q => ?_⟩
      by_cases hq : q = p
      · rw [if_pos hq, hq, hp, List.nil_append]
      · rw [if_neg hq, filter_not_mem_nil]
  | cons n ns ih =>
      obtain ⟨hout, hnp, hn, hfragment⟩ := hns n List.mem_cons_self
      rw [List.nodup_cons] at hnodup
      obtain ⟨f₁, hrun, hf₁⟩ := relinked_insertNode hf hp hlt hout hnp hn hfragment
      have hp₁ : f₁.children p = (front ++ [n]) ++ back := by
        rw [hf₁.children_eq, if_pos rfl, ← List.append_cons]
      obtain ⟨f₂, hrest, hf₂⟩ := ih hf₁.linked hp₁ (hf₁.nextId_eq ▸ hlt) hnodup.2 fun m hm => by
        obtain ⟨hmout, hmp, hm', hmfragment⟩ := hns m (List.mem_cons_of_mem n hm)
        have hne : m ≠ n := fun e => hnodup.1 (e ▸ hm)
        rw [hp, List.mem_append, not_or] at hmout
        rw [hp₁, hf₁.nextId_eq, hf₁.isFragment_eq]
        exact ⟨by simp [hmout, hne], hmp, hm', hmfragment⟩
      rw [List.length_append, List.length_singleton] at hrest
      refine ⟨f₂, ?_, (hf₁.trans hf₂).congr fun q => ?_⟩
      · show (Edit.insertNode p front.length n >>= fun _ =>
          Edit.insertNodes p (front.length + 1) ns) f = _
        rw [bind_of_ok hrun, hrest]
      · by_cases hq : q = p
        · rw [if_pos hq, if_pos hq]
          simp
        · rw [if_neg hq, if_neg hq, hf₁.children_eq, if_neg hq, filter_not_mem_cons]

/-- The children of a fragment are inserted in front of a child of their new parent. -/
theorem relinked_insertFragment {c : NodeId} {front back : List NodeId} (hf : f.Linked)
    (hp : f.children p = front ++ c :: back) (hfragment : f.isFragment n = true) (hnp : n ≠ p)
    (hparent : p ∉ f.children n) :
    ∃ f', Edit.insertBefore p n (some c) f = .ok () f' ∧ Relinked f f' fun q =>
      if q = p then front ++ (f.children n ++ c :: back)
      else (f.children q).filter (· ∉ f.children n) := by
  have hfront : c ∉ front := by
    have hnodup := hf.nodup_children p
    rw [hp, List.nodup_append] at hnodup
    exact fun h => hnodup.2.2 c h c (by simp) rfl
  have hlt : p < f.nextId := lt_nextId_of_mem_children (n := c) (by simp [hp])
  have hchildren : ∀ m ∈ f.counted.children n, m ∉ f.counted.children p ∧ m ≠ p ∧
      m < f.counted.nextId ∧ f.counted.isFragment m = false := by
    intro m hm
    have hm' : m ∈ f.children n := hm
    exact ⟨fun h => hnp (hf.parent_unique hm' h), fun e => hparent (e ▸ hm'), hf.lt_nextId hm',
      hf.not_isFragment hm'⟩
  obtain ⟨f', hinsert, hf'⟩ := relinked_insertNodes (p := p) hf.counted
    (show f.counted.children p = front ++ c :: back from hp) hlt (hf.nodup_children n) hchildren
  refine ⟨f', ?_, hf'.linked, hf'.children_eq, hf'.kind?_eq, hf'.nextId_eq, hf'.partsMade_eq⟩
  have halone : f.counted.detach n = f.counted :=
    detach_of_parent?_eq_none
      (show f.counted.parent? n = none from hf.alone_of_isFragment hfragment)
  have hposition : Edit.position p c f.counted = .ok front.length f.counted := by
    apply look_of_ok
    rw [show f.counted.children p = f.children p from rfl, hp, findIdx?_eq_length hfront]
  have hwhole : Edit.insert p front.length n f.counted = .ok () f' := by
    unfold Edit.insert
    rw [bind_of_ok (get_ok _), if_neg hnp,
      if_pos (show f.counted.isFragment n = true from hfragment)]
    exact hinsert
  unfold Edit.insertBefore
  rw [bind_of_ok (countMutation_ok f), bind_of_ok (detach_ok n f.counted), halone]
  show (Edit.position p c >>= fun place => Edit.insert p place n) _ = _
  rw [bind_of_ok hposition, hwhole]

/-! ## What is brought in -/

/-- The nodes that are inserted for a node: itself, or what is in it if it is a fragment. -/
def load (f : Forest) (n : NodeId) : List NodeId := if f.isFragment n then f.children n else [n]

/-- What a node brings into a list of nodes: itself, or, if it is a fragment, what is in it and is
not listed by itself. -/
def brings (f : Forest) (content : NodeId → List NodeId) (targets : List NodeId) (n : NodeId) :
    List NodeId :=
  if f.isFragment n then (content n).filter (· ∉ targets) else [n]

/-- What is brought in for a list of nodes. -/
def brought (f : Forest) (content : NodeId → List NodeId) (targets : List NodeId) :
    List NodeId :=
  targets.flatMap (f.brings content targets)

section Brought

variable {m : NodeId} {targets : List NodeId}

theorem load_of_not_fragment (h : f.isFragment n = false) : f.load n = [n] := by
  rw [load, h]
  rfl

theorem load_of_fragment (h : f.isFragment n = true) : f.load n = f.children n := if_pos h

theorem brings_of_not_fragment (h : f.isFragment n = false) (content : NodeId → List NodeId)
    (targets : List NodeId) : f.brings content targets n = [n] := by
  rw [brings, h]
  rfl

theorem brings_of_fragment (h : f.isFragment n = true) (content : NodeId → List NodeId)
    (targets : List NodeId) : f.brings content targets n = (content n).filter (· ∉ targets) :=
  if_pos h

theorem brought_of_not_fragment (h : ∀ n ∈ targets, f.isFragment n = false)
    (content : NodeId → List NodeId) : f.brought content targets = targets := by
  rw [brought, List.flatMap_congr fun n hn => brings_of_not_fragment (h n hn) content targets,
    List.flatMap_singleton']

/-- A node that is listed is brought in by itself unless it is a fragment. -/
theorem mem_brought (hm : m ∈ targets) (h : f.isFragment m = false)
    (content : NodeId → List NodeId) : m ∈ f.brought content targets :=
  List.mem_flatMap.mpr ⟨m, hm, by rw [brings_of_not_fragment h]; exact List.mem_singleton_self m⟩

/-- What is inserted for a node is no fragment. -/
theorem Linked.not_fragment_of_mem_load (hf : f.Linked) (hm : m ∈ f.load n) :
    f.isFragment m = false := by
  by_cases hfragment : f.isFragment n = true
  · rw [load_of_fragment hfragment] at hm
    exact hf.not_isFragment hm
  · rw [load_of_not_fragment (Bool.eq_false_iff.mpr hfragment), List.mem_singleton] at hm
    exact hm ▸ Bool.eq_false_iff.mpr hfragment

section Cons

variable {f₁ : Forest}

/-- What is brought in for a node and others is what is inserted for it, but for what is listed
among the others, and what is brought in for these once that has been inserted. -/
theorem brought_cons (hf : f.Linked) (hn : n ∉ targets)
    (hkind : ∀ m ∈ targets, f₁.isFragment m = f.isFragment m)
    (hch : ∀ m ∈ targets, f₁.children m = (f.children m).filter (· ∉ f.load n)) :
    f.brought f.children (n :: targets)
      = (f.load n).filter (· ∉ targets) ++ f₁.brought f₁.children targets := by
  have hself : f.brings f.children (n :: targets) n = (f.load n).filter (· ∉ targets) := by
    by_cases hfragment : f.isFragment n = true
    · have hout : n ∉ f.children n := fun h => hf.ne_of_mem_children h rfl
      rw [brings_of_fragment hfragment, load_of_fragment hfragment, filter_not_mem_cons,
        filter_ne_of_not_mem hout]
    · have hplain := Bool.eq_false_iff.mpr hfragment
      rw [brings_of_not_fragment hplain, load_of_not_fragment hplain,
        filter_not_mem_of_disjoint (by simpa using hn)]
  have hothers : ∀ m ∈ targets,
      f.brings f.children (n :: targets) m = f₁.brings f₁.children targets m := by
    intro m hm
    by_cases hfragment : f.isFragment m = true
    · rw [brings_of_fragment hfragment, brings_of_fragment ((hkind m hm).trans hfragment), hch m hm,
        filter_not_mem_cons]
      congr 1
      by_cases hn' : f.isFragment n = true
      · have hne : m ≠ n := fun e => hn (e ▸ hm)
        rw [load_of_fragment hn', filter_not_mem_of_disjoint fun x hx hx' =>
          hne (hf.parent_unique hx hx'), filter_ne_of_not_mem]
        intro h
        rw [hf.not_isFragment h] at hn'
        exact nomatch hn'
      · rw [load_of_not_fragment (Bool.eq_false_iff.mpr hn'), filter_not_mem_singleton]
    · have hplain := Bool.eq_false_iff.mpr hfragment
      rw [brings_of_not_fragment hplain, brings_of_not_fragment ((hkind m hm).trans hplain)]
  rw [brought, List.flatMap_cons, hself, List.flatMap_congr hothers]
  rfl

/-- Of what has been inserted for a node, the others bring in once more what they list. -/
theorem mem_brought_iff_of_mem_load (hf : f.Linked)
    (hkind : ∀ m ∈ targets, f₁.isFragment m = f.isFragment m)
    (hch : ∀ m ∈ targets, f₁.children m = (f.children m).filter (· ∉ f.load n))
    (hm : m ∈ f.load n) : m ∈ f₁.brought f₁.children targets ↔ m ∈ targets := by
  constructor
  · intro h
    obtain ⟨k, hk, hmk⟩ := List.mem_flatMap.mp h
    by_cases hfragment : f₁.isFragment k = true
    · rw [brings_of_fragment hfragment, hch k hk] at hmk
      have hout := List.of_mem_filter (List.mem_of_mem_filter hmk)
      simp [hm] at hout
    · rw [brings_of_not_fragment (Bool.eq_false_iff.mpr hfragment), List.mem_singleton] at hmk
      exact hmk ▸ hk
  · exact fun h => mem_brought h ((hkind m h).trans (hf.not_fragment_of_mem_load hm)) _

end Cons

end Brought

end Forest

end LiveTemplate
