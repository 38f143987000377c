import LiveTemplate.Forest.Plant
import LiveTemplate.Proofs.Forest.Linked

/-!
# Growing a forest

A forest grows when trees are planted in it.  `Added f f' q new` says what planting below the node
`q` does to the nodes that were there before: `q` gets the children `new` behind its old ones, and
nothing else changes.  `Stand f t n stop` says what planting has made: the tree `t` stands at the
node `n`, and its nodes are numbered in document order from `n` up to `stop`.

The attributes of an element are no links, so setting one leaves all links as they are.
-/

namespace LiveTemplate

set_option autoImplicit false

/-- A kind of node with an attribute set or removed, if it has attributes at all. -/
def NodeKind.withAttribute (name : String) (value : Option String) : NodeKind → NodeKind
  | .element e =>
    match value with
    | some value => .element { e with attributes := e.attributes.set name value }
    | none => .element { e with attributes := e.attributes.erase name }
  | kind => kind

namespace Forest

variable {f f' : Forest} {n m p q : NodeId}

/-- A forest is linked when another one with the same links is. -/
theorem Linked.of_views (hf : f.Linked) (hchildren : ∀ q, f'.children q = f.children q)
    (hparent : ∀ n, f'.parent? n = f.parent? n)
    (hfragment : ∀ n, f'.isFragment n = true → f.parent? n = none) : f'.Linked where
  mem_children_iff := by
    intro n p
    rw [hchildren, hparent, hf.mem_children_iff]
  nodup_children := by
    intro p
    rw [hchildren]
    exact hf.nodup_children p
  not_own_parent := by
    intro n
    rw [hparent]
    exact hf.not_own_parent n
  alone_of_isFragment := by
    intro n hn
    rw [hparent]
    exact hfragment n hn

/-! ## A node more -/

@[simp] theorem children_grow (f : Forest) (kind : NodeKind) (q : NodeId) :
    (f.grow kind).children q = f.children q := by
  by_cases hq : q = f.nextId
  · rw [children_of_nextId_le (Nat.le_of_eq hq.symm), hq, children, node?_grow_self]
    rfl
  · rw [children, node?_grow_of_ne kind hq, children]

@[simp] theorem parent?_grow (f : Forest) (kind : NodeKind) (n : NodeId) :
    (f.grow kind).parent? n = f.parent? n := by
  by_cases hn : n = f.nextId
  · rw [hn, parent?, node?_grow_self, parent?, node?_eq_none_iff.mpr (Nat.le_refl _)]
    rfl
  · rw [parent?, node?_grow_of_ne kind hn, parent?]

@[simp] theorem kind?_grow_self (f : Forest) (kind : NodeKind) :
    (f.grow kind).kind? f.nextId = some kind := by
  rw [kind?, node?_grow_self]
  rfl

theorem kind?_grow_of_lt (kind : NodeKind) (hn : n < f.nextId) :
    (f.grow kind).kind? n = f.kind? n := by
  rw [kind?, node?_grow_of_ne kind (Nat.ne_of_lt hn), kind?]

theorem Linked.grow (hf : f.Linked) (kind : NodeKind) : (f.grow kind).Linked := by
  refine hf.of_views (children_grow f kind) (parent?_grow f kind) fun n hn => ?_
  by_cases hlt : n < f.nextId
  · rw [isFragment_eq, kind?_grow_of_lt kind hlt, ← isFragment_eq] at hn
    exact hf.alone_of_isFragment hn
  · rw [parent?, node?_eq_none_iff.mpr (Nat.le_of_not_lt hlt)]
    rfl

/-! ## Trees below a node -/

/-- `f'` is `f` with the new nodes `new` behind the children of `q`, and with whatever stands below
these. -/
structure Added (f f' : Forest) (q : NodeId) (new : List NodeId) : Prop where
  linked : f'.Linked
  nextId_le : f.nextId ≤ f'.nextId
  children_eq : f'.children q = f.children q ++ new
  children_other : ∀ n, n < f.nextId → n ≠ q → f'.children n = f.children n
  parent?_eq : ∀ n, n < f.nextId → f'.parent? n = f.parent? n
  kind?_eq : ∀ n, n < f.nextId → f'.kind? n = f.kind? n

namespace Added

theorem refl (hf : f.Linked) (q : NodeId) : Added f f q [] where
  linked := hf
  nextId_le := Nat.le_refl _
  children_eq := (List.append_nil _).symm
  children_other := fun _ _ _ => rfl
  parent?_eq := fun _ _ => rfl
  kind?_eq := fun _ _ => rfl

/-- What is added behind what was added before. -/
theorem trans {f'' : Forest} {new more : List NodeId} (h : Added f f' q new)
    (h' : Added f' f'' q more) : Added f f'' q (new ++ more) where
  linked := h'.linked
  nextId_le := Nat.le_trans h.nextId_le h'.nextId_le
  children_eq := by rw [h'.children_eq, h.children_eq, List.append_assoc]
  children_other := fun n hn hq =>
    (h'.children_other n (Nat.lt_of_lt_of_le hn h.nextId_le) hq).trans (h.children_other n hn hq)
  parent?_eq := fun n hn =>
    (h'.parent?_eq n (Nat.lt_of_lt_of_le hn h.nextId_le)).trans (h.parent?_eq n hn)
  kind?_eq := fun n hn =>
    (h'.kind?_eq n (Nat.lt_of_lt_of_le hn h.nextId_le)).trans (h.kind?_eq n hn)

/-- What is added below a new node stays below it. -/
theorem below {f'' : Forest} {new more : List NodeId} (h : Added f f' q new)
    (h' : Added f' f'' n more) (hq : q < f.nextId) (hn : f.nextId ≤ n) : Added f f'' q new := by
  have hne : ∀ m, m < f.nextId → m ≠ n := fun m hm => Nat.ne_of_lt (Nat.lt_of_lt_of_le hm hn)
  have hlt : ∀ m, m < f.nextId → m < f'.nextId := fun m hm =>
    Nat.lt_of_lt_of_le hm h.nextId_le
  refine ⟨h'.linked, Nat.le_trans h.nextId_le h'.nextId_le, ?_, ?_, ?_, ?_⟩
  · rw [h'.children_other q (hlt q hq) (hne q hq), h.children_eq]
  · intro m hm hmq
    rw [h'.children_other m (hlt m hm) (hne m hm), h.children_other m hm hmq]
  · intro m hm
    rw [h'.parent?_eq m (hlt m hm), h.parent?_eq m hm]
  · intro m hm
    rw [h'.kind?_eq m (hlt m hm), h.kind?_eq m hm]

end Added

/-- A node that is made and put behind the children of another one. -/
theorem added_grow {kind : NodeKind} (hf : f.Linked) (hq : q < f.nextId)
    (hkind : kind ≠ .fragment) :
    Added f ((f.grow kind).attachLast q f.nextId) q [f.nextId] ∧
      ((f.grow kind).attachLast q f.nextId).nextId = f.nextId + 1 ∧
      ((f.grow kind).attachLast q f.nextId).kind? f.nextId = some kind ∧
      ((f.grow kind).attachLast q f.nextId).children f.nextId = [] := by
  have hne : f.nextId ≠ q := Nat.ne_of_gt hq
  have hself : (f.grow kind).isFragment f.nextId = false := by
    rw [isFragment_eq, kind?_grow_self]
    simpa using hkind
  have halone : (f.grow kind).parent? f.nextId = none := by
    rw [parent?_grow, parent?, node?_eq_none_iff.mpr (Nat.le_refl _)]
    rfl
  have hnext : f.nextId < (f.grow kind).nextId := by
    rw [nextId_grow]
    exact Nat.lt_succ_self _
  have hlinks := relinked_attach (hf.grow kind) hnext (Nat.lt_trans hq hnext) hne hself halone
    (Nat.le_refl _)
  have hsize : ((f.grow kind).attachLast q f.nextId).nextId = f.nextId + 1 := by
    rw [attachLast, nextId_attach, nextId_grow]
  refine ⟨⟨hlinks.linked, ?_, ?_, ?_, ?_, ?_⟩, hsize, ?_, ?_⟩
  · rw [hsize]
    exact Nat.le_succ _
  · rw [attachLast, hlinks.children_eq, if_pos rfl, List.insertIdx_length_self, children_grow]
  · intro n _ hnq
    rw [attachLast, hlinks.children_eq, if_neg hnq, children_grow]
  · intro n hn
    rw [attachLast, parent?_attach hnext, if_neg (Nat.ne_of_gt hn), parent?_grow]
  · intro n hn
    rw [attachLast, hlinks.kind?_eq, kind?_grow_of_lt kind hn]
  · rw [attachLast, hlinks.kind?_eq, kind?_grow_self]
  · rw [attachLast, hlinks.children_eq, if_neg hne, children_grow,
      children_of_nextId_le (Nat.le_refl _)]

mutual
/-- The tree stands at the node, and its nodes are numbered in document order up to `stop`. -/
def Stand (f : Forest) : Tree → NodeId → NodeId → Prop
  | .leaf l, n, stop => f.kind? n = some (.leaf l) ∧ f.children n = [] ∧ stop = n + 1
  | .element e children, n, stop =>
    f.kind? n = some (.element e) ∧ StandAll f children (f.children n) (n + 1) stop

/-- The trees stand at the nodes, one after another, numbered in document order. -/
def StandAll (f : Forest) : List Tree → List NodeId → NodeId → NodeId → Prop
  | [], ns, first, stop => ns = [] ∧ stop = first
  | t :: rest, ns, first, stop =>
    ∃ mid others, ns = first :: others ∧ Stand f t first mid ∧ StandAll f rest others mid stop
end

mutual
theorem Stand.lt : ∀ {t : Tree} {n stop : NodeId}, Stand f t n stop → n < stop
  | .leaf _, n, stop, h => by
      rw [h.2.2]
      exact Nat.lt_succ_self n
  | .element _ children, n, stop, h => by
      have hchildren : StandAll f children (f.children n) (n + 1) stop := h.2
      exact hchildren.le

theorem StandAll.le : ∀ {ts : List Tree} {ns : List NodeId} {first stop : NodeId},
    StandAll f ts ns first stop → first ≤ stop
  | [], _, _, _, h => Nat.le_of_eq h.2.symm
  | _ :: _, _, _, _, h => by
      obtain ⟨mid, others, -, hstand, hrest⟩ := h
      exact Nat.le_trans (Nat.le_of_lt hstand.lt) hrest.le
end

mutual
/-- Where a tree stands depends on its own nodes only. -/
theorem Stand.congr : ∀ {t : Tree} {n stop : NodeId}, Stand f t n stop →
    (∀ m, n ≤ m → m < stop → f'.kind? m = f.kind? m ∧ f'.children m = f.children m) →
    Stand f' t n stop
  | .leaf l, n, stop, h, heq => by
      have hn := heq n (Nat.le_refl _) (Stand.lt (t := .leaf l) h)
      exact ⟨hn.1.trans h.1, hn.2.trans h.2.1, h.2.2⟩
  | .element e children, n, stop, h, heq => by
      have hn := heq n (Nat.le_refl _) (Stand.lt (t := .element e children) h)
      refine ⟨hn.1.trans h.1, ?_⟩
      rw [hn.2]
      exact StandAll.congr h.2 fun m hm => heq m (Nat.le_of_succ_le hm)

theorem StandAll.congr : ∀ {ts : List Tree} {ns : List NodeId} {first stop : NodeId},
    StandAll f ts ns first stop →
    (∀ m, first ≤ m → m < stop → f'.kind? m = f.kind? m ∧ f'.children m = f.children m) →
    StandAll f' ts ns first stop
  | [], _, _, _, h, _ => h
  | _ :: _, _, _, _, h, heq => by
      obtain ⟨mid, others, hns, hstand, hrest⟩ := h
      exact ⟨mid, others, hns,
        hstand.congr fun m hm hlt => heq m hm (Nat.lt_of_lt_of_le hlt hrest.le),
        hrest.congr fun m hm => heq m (Nat.le_trans (Nat.le_of_lt hstand.lt) hm)⟩
end

mutual
/-- Planting a tree adds one child, and the tree stands there. -/
theorem added_plant : ∀ {f : Forest} {q : NodeId} (t : Tree), f.Linked → q < f.nextId →
    Added f (f.plant q t) q [f.nextId] ∧ Stand (f.plant q t) t f.nextId (f.plant q t).nextId
  | f, q, .leaf l, hf, hq => by
      have hleaf : NodeKind.leaf l ≠ .fragment := nofun
      obtain ⟨hadded, hnext, hkind, hchildren⟩ := added_grow hf hq hleaf
      exact ⟨hadded, hkind, hchildren, hnext⟩
  | f, q, .element e children, hf, hq => by
      have helement : NodeKind.element e ≠ .fragment := nofun
      obtain ⟨hadded, hnext, hkind, hempty⟩ := added_grow hf hq helement
      have hlt : f.nextId < ((f.grow (.element e)).attachLast q f.nextId).nextId := by
        rw [hnext]
        exact Nat.lt_succ_self _
      obtain ⟨new, hbelow, hstand⟩ := added_plantAll children hadded.linked hlt
      refine ⟨hadded.below hbelow hq (Nat.le_refl _), (hbelow.kind?_eq _ hlt).trans hkind, ?_⟩
      have hnew := hbelow.children_eq
      rw [hempty, List.nil_append] at hnew
      rw [hnext] at hstand
      exact hnew ▸ hstand

/-- Planting trees adds children, and the trees stand there. -/
theorem added_plantAll : ∀ {f : Forest} {q : NodeId} (ts : List Tree), f.Linked →
    q < f.nextId → ∃ new, Added f (f.plantAll q ts) q new ∧
      StandAll (f.plantAll q ts) ts new f.nextId (f.plantAll q ts).nextId
  | f, q, [], hf, _ => ⟨[], Added.refl hf q, rfl, rfl⟩
  | f, q, t :: rest, hf, hq => by
      obtain ⟨hfirst, hstand⟩ := added_plant t hf hq
      have hlt := Nat.lt_of_lt_of_le hq hfirst.nextId_le
      obtain ⟨new, hrest, hstandRest⟩ := added_plantAll rest hfirst.linked hlt
      refine ⟨f.nextId :: new, hfirst.trans hrest, (f.plant q t).nextId, new, rfl, ?_,
        hstandRest⟩
      refine hstand.congr fun m hm hmlt => ⟨hrest.kind?_eq m hmlt, ?_⟩
      exact hrest.children_other m hmlt (Nat.ne_of_gt (Nat.lt_of_lt_of_le hq hm))
end

/-- `f'` is `f` with trees planted under a new fragment, and the nodes that were there are left
alone. -/
structure Planted (f f' : Forest) (ts : List Tree) : Prop where
  linked : f'.Linked
  home_lt : f.nextId < f'.nextId
  kind?_home : f'.kind? f.nextId = some .fragment
  children_old : ∀ n, n < f.nextId → f'.children n = f.children n
  parent?_old : ∀ n, n < f.nextId → f'.parent? n = f.parent? n
  kind?_old : ∀ n, n < f.nextId → f'.kind? n = f.kind? n
  stand : StandAll f' ts (f'.children f.nextId) (f.nextId + 1) f'.nextId

theorem planted_plantFragment (hf : f.Linked) (ts : List Tree) :
    Planted f (f.plantFragment ts) ts := by
  have hsize := nextId_grow f .fragment
  have hlt : f.nextId < (f.grow .fragment).nextId := by
    rw [hsize]
    exact Nat.lt_succ_self _
  obtain ⟨new, hadded, hstand⟩ := added_plantAll ts (hf.grow .fragment) hlt
  have hnew := hadded.children_eq
  rw [children_grow, children_of_nextId_le (Nat.le_refl _), List.nil_append] at hnew
  have hold : ∀ n, n < f.nextId → n < (f.grow .fragment).nextId := fun n hn => Nat.lt_trans hn hlt
  refine ⟨hadded.linked, Nat.lt_of_lt_of_le hlt hadded.nextId_le, ?_, ?_, ?_, ?_, ?_⟩
  · exact (hadded.kind?_eq _ hlt).trans (kind?_grow_self f .fragment)
  · intro n hn
    exact (hadded.children_other n (hold n hn) (Nat.ne_of_lt hn)).trans (children_grow f _ n)
  · intro n hn
    exact (hadded.parent?_eq n (hold n hn)).trans (parent?_grow f _ n)
  · intro n hn
    exact (hadded.kind?_eq n (hold n hn)).trans (kind?_grow_of_lt _ hn)
  · rw [hsize] at hstand
    exact hnew ▸ hstand

/-! ## Attributes -/

section Attributes

variable {name : String} {value : Option String}

theorem node?_setAttribute (f : Forest) (n : NodeId) (name : String) (value : Option String)
    (m : NodeId) : (f.setAttribute n name value).node? m =
      if n = m then (f.node? m).map fun x => { x with kind := x.kind.withAttribute name value }
      else f.node? m := by
  unfold setAttribute
  rw [node?_modify]
  congr 2
  funext x
  obtain ⟨kind, parent, children⟩ := x
  cases kind <;> cases value <;> rfl

theorem kind?_setAttribute (f : Forest) (n : NodeId) (name : String) (value : Option String)
    (m : NodeId) : (f.setAttribute n name value).kind? m =
      if n = m then (f.kind? m).map (NodeKind.withAttribute name value) else f.kind? m := by
  unfold kind?
  rw [node?_setAttribute]
  by_cases hn : n = m
  · rw [if_pos hn, if_pos hn, Option.map_map, Option.map_map]
    rfl
  · rw [if_neg hn, if_neg hn]

/-- Setting an attribute leaves all links as they are. -/
theorem links_setAttribute (f : Forest) (n : NodeId) (name : String) (value : Option String)
    (m : NodeId) : (f.setAttribute n name value).children m = f.children m ∧
      (f.setAttribute n name value).parent? m = f.parent? m := by
  unfold children parent?
  rw [node?_setAttribute]
  by_cases hn : n = m
  · rw [if_pos hn]
    cases f.node? m <;> exact ⟨rfl, rfl⟩
  · rw [if_neg hn]
    exact ⟨rfl, rfl⟩

@[simp] theorem nextId_setAttribute (f : Forest) (n : NodeId) (name : String)
    (value : Option String) : (f.setAttribute n name value).nextId = f.nextId :=
  nextId_modify f n _

theorem isFragment_setAttribute (f : Forest) (n : NodeId) (name : String)
    (value : Option String) (m : NodeId) :
    (f.setAttribute n name value).isFragment m = f.isFragment m := by
  rw [isFragment_eq, isFragment_eq, kind?_setAttribute]
  by_cases hn : n = m
  · rw [if_pos hn]
    rcases f.kind? m with _ | _ | _ | _ <;> cases value <;> rfl
  · rw [if_neg hn]

theorem leaf?_setAttribute (f : Forest) (n : NodeId) (name : String)
    (value : Option String) (m : NodeId) :
    (f.setAttribute n name value).leaf? m = f.leaf? m := by
  rw [leaf?_eq, leaf?_eq, kind?_setAttribute]
  by_cases hn : n = m
  · rw [if_pos hn]
    rcases f.kind? m with _ | _ | _ | _ <;> cases value <;> rfl
  · rw [if_neg hn]

theorem Linked.setAttribute (hf : f.Linked) (n : NodeId) (name : String)
    (value : Option String) : (f.setAttribute n name value).Linked := by
  refine hf.of_views (fun q => (links_setAttribute f n name value q).1)
    (fun m => (links_setAttribute f n name value m).2) fun m hm => ?_
  rw [isFragment_setAttribute] at hm
  exact hf.alone_of_isFragment hm

end Attributes

end Forest

end LiveTemplate
