import LiveTemplate.Forest.Plant
import LiveTemplate.Proofs.Forest.Linked
import Mathlib.Data.List.InsertIdx

/-!
# Newer nodes stand apart

Nodes are numbered as they are made, so the nodes from a number on are the newer ones.  As long as
they hang only among themselves, an edit of newer nodes reads nothing of the older ones:
`AgreeFrom k f g` says that two forests have the same nodes from `k` on, and `Alike k` that two runs
end in the same way, in forests that agree again.  Every edit that is given newer nodes runs alike
in forests that agree, whatever has been done to the older nodes in either of them.
-/

namespace LiveTemplate

set_option autoImplicit false

/-- The links of a node lead only to nodes from `k` on. -/
structure Node.HangsFrom (k : NodeId) (x : Node) : Prop where
  parent_le : ∀ p, x.parent = some p → k ≤ p
  child_le : ∀ c ∈ x.children, k ≤ c

namespace Forest

/-- The forests have the same nodes from `k` on, and these hang only among themselves.  As many
parts have been made in either of them. -/
structure AgreeFrom (k : NodeId) (f g : Forest) : Prop where
  nextId_eq : f.nextId = g.nextId
  partsMade_eq : f.partsMade = g.partsMade
  le_nextId : k ≤ g.nextId
  node?_eq : ∀ n, k ≤ n → f.node? n = g.node? n
  hangs : ∀ n x, k ≤ n → g.node? n = some x → x.HangsFrom k

namespace AgreeFrom

variable {k n p q : NodeId} {f g : Forest}

/-! ## Looking at newer nodes -/

theorem parent?_eq (h : AgreeFrom k f g) (hn : k ≤ n) : f.parent? n = g.parent? n := by
  rw [parent?, parent?, h.node?_eq n hn]

theorem children_eq (h : AgreeFrom k f g) (hn : k ≤ n) : f.children n = g.children n := by
  rw [children, children, h.node?_eq n hn]

theorem element?_eq (h : AgreeFrom k f g) (hn : k ≤ n) : f.element? n = g.element? n := by
  rw [element?, element?, h.node?_eq n hn]

theorem isFragment_eq (h : AgreeFrom k f g) (hn : k ≤ n) : f.isFragment n = g.isFragment n := by
  rw [isFragment, isFragment, h.node?_eq n hn]

theorem attribute?_eq (h : AgreeFrom k f g) (hn : k ≤ n) (name : String) :
    f.attribute? n name = g.attribute? n name := by
  rw [attribute?, attribute?, h.element?_eq hn]

theorem parent_le (h : AgreeFrom k f g) (hn : k ≤ n) (hp : g.parent? n = some p) : k ≤ p := by
  unfold parent? at hp
  cases hnode : g.node? n with
  | none =>
      rw [hnode] at hp
      exact nomatch hp
  | some x =>
      rw [hnode] at hp
      exact (h.hangs n x hn hnode).parent_le p hp

theorem child_le (h : AgreeFrom k f g) (hp : k ≤ p) (hn : n ∈ g.children p) : k ≤ n := by
  unfold children at hn
  cases hnode : g.node? p with
  | none =>
      rw [hnode] at hn
      exact nomatch hn
  | some x =>
      rw [hnode] at hn
      exact (h.hangs p x hp hnode).child_le n hn

/-! ## Changing newer nodes -/

theorem modify (h : AgreeFrom k f g) (n : NodeId) {change : Node → Node}
    (hchange : ∀ x : Node, x.HangsFrom k → (change x).HangsFrom k) :
    AgreeFrom k (f.modify n change) (g.modify n change) where
  nextId_eq := by rw [nextId_modify, nextId_modify, h.nextId_eq]
  partsMade_eq := h.partsMade_eq
  le_nextId := by
    rw [nextId_modify]
    exact h.le_nextId
  node?_eq m hm := by rw [node?_modify, node?_modify, h.node?_eq m hm]
  hangs m x hm hx := by
    rw [node?_modify] at hx
    split at hx
    · obtain ⟨y, hy, rfl⟩ := Option.map_eq_some_iff.mp hx
      exact hchange y (h.hangs m y hm hy)
    · exact h.hangs m x hm hx

theorem grow (h : AgreeFrom k f g) (kind : NodeKind) :
    AgreeFrom k (f.grow kind) (g.grow kind) where
  nextId_eq := by rw [nextId_grow, nextId_grow, h.nextId_eq]
  partsMade_eq := h.partsMade_eq
  le_nextId := by
    rw [nextId_grow]
    exact Nat.le_succ_of_le h.le_nextId
  node?_eq m hm := by
    by_cases hnew : m = g.nextId
    · subst hnew
      rw [node?_grow_self, ← h.nextId_eq, node?_grow_self]
    · rw [node?_grow_of_ne _ hnew, node?_grow_of_ne _ (h.nextId_eq ▸ hnew), h.node?_eq m hm]
  hangs m x hm hx := by
    by_cases hnew : m = g.nextId
    · rw [hnew, node?_grow_self] at hx
      cases hx
      exact ⟨nofun, nofun⟩
    · rw [node?_grow_of_ne _ hnew] at hx
      exact h.hangs m x hm hx

theorem counted (h : AgreeFrom k f g) : AgreeFrom k f.counted g.counted :=
  ⟨h.nextId_eq, h.partsMade_eq, h.le_nextId, h.node?_eq, h.hangs⟩

/-- A part is made in both. -/
theorem partMade (h : AgreeFrom k f g) :
    AgreeFrom k { f with partsMade := f.partsMade + 1 }
      { g with partsMade := g.partsMade + 1 } :=
  ⟨h.nextId_eq, congrArg (· + 1) h.partsMade_eq, h.le_nextId, h.node?_eq, h.hangs⟩

theorem detach (h : AgreeFrom k f g) (hn : k ≤ n) : AgreeFrom k (f.detach n) (g.detach n) := by
  unfold Forest.detach
  rw [h.parent?_eq hn]
  cases g.parent? n with
  | none => exact h
  | some p =>
      refine (h.modify p fun x hx => ?_).modify n fun x hx => ?_
      · exact ⟨hx.parent_le, fun c hc => hx.child_le c (List.mem_of_mem_erase hc)⟩
      · exact ⟨nofun, hx.child_le⟩

theorem attach (h : AgreeFrom k f g) (hp : k ≤ p) (hn : k ≤ n) (place : Nat) :
    AgreeFrom k (f.attach p place n) (g.attach p place n) := by
  refine (h.modify p fun x hx => ?_).modify n fun x hx => ?_
  · refine ⟨hx.parent_le, fun c hc => ?_⟩
    rcases List.eq_or_mem_of_mem_insertIdx hc with rfl | hc
    · exact hn
    · exact hx.child_le c hc
  · exact ⟨fun q hq => Option.some.inj hq ▸ hp, hx.child_le⟩

theorem attachLast (h : AgreeFrom k f g) (hp : k ≤ p) (hn : k ≤ n) :
    AgreeFrom k (f.attachLast p n) (g.attachLast p n) := by
  unfold Forest.attachLast
  rw [h.children_eq hp]
  exact h.attach hp hn _

theorem setAttribute (h : AgreeFrom k f g) (n : NodeId) (name : String) (value : Option String) :
    AgreeFrom k (f.setAttribute n name value) (g.setAttribute n name value) := by
  refine h.modify n fun x hx => ?_
  split <;> exact ⟨hx.parent_le, hx.child_le⟩

/-! ## Planting trees -/

mutual
theorem plant : ∀ {f g : Forest} {q : NodeId} (t : Tree), AgreeFrom k f g → k ≤ q →
    AgreeFrom k (f.plant q t) (g.plant q t)
  | f, g, q, .leaf l, h, hq => by
      show AgreeFrom k ((f.grow (.leaf l)).attachLast q f.nextId) _
      rw [h.nextId_eq]
      exact (h.grow _).attachLast hq h.le_nextId
  | f, g, q, .element e children, h, hq => by
      show AgreeFrom k (((f.grow (.element e)).attachLast q f.nextId).plantAll f.nextId children) _
      rw [h.nextId_eq]
      exact plantAll children ((h.grow _).attachLast hq h.le_nextId) h.le_nextId

theorem plantAll : ∀ {f g : Forest} {q : NodeId} (ts : List Tree), AgreeFrom k f g → k ≤ q →
    AgreeFrom k (f.plantAll q ts) (g.plantAll q ts)
  | _, _, _, [], h, _ => h
  | _, _, _, t :: rest, h, hq => plantAll rest (plant t h hq) hq
end

theorem plantFragment (h : AgreeFrom k f g) (ts : List Tree) :
    AgreeFrom k (f.plantFragment ts) (g.plantFragment ts) := by
  unfold Forest.plantFragment
  rw [h.nextId_eq]
  exact plantAll ts (h.grow .fragment) h.le_nextId

end AgreeFrom

/-- A forest of nodes that all stand alone, in which some parts have been made. -/
def loose (size parts : Nat) : Forest where
  nodes := Array.replicate size { kind := .fragment }
  partsMade := parts

@[simp] theorem nextId_loose (size parts : Nat) : (loose size parts).nextId = size :=
  Array.size_replicate

theorem node?_loose {size parts n : Nat} {x : Node} (h : (loose size parts).node? n = some x) :
    x = { kind := .fragment } := by
  unfold node? loose at h
  rw [Array.getElem?_replicate] at h
  split at h
  · exact (Option.some.inj h).symm
  · exact nomatch h

theorem parent?_loose (size parts : Nat) (n : NodeId) : (loose size parts).parent? n = none := by
  unfold parent?
  cases h : (loose size parts).node? n with
  | none => rfl
  | some x =>
      rw [node?_loose h]
      rfl

theorem children_loose (size parts : Nat) (n : NodeId) : (loose size parts).children n = [] := by
  unfold children
  cases h : (loose size parts).node? n with
  | none => rfl
  | some x =>
      rw [node?_loose h]
      rfl

theorem linked_loose (size parts : Nat) : (loose size parts).Linked where
  mem_children_iff := by
    intro n p
    rw [children_loose, parent?_loose]
    exact ⟨nofun, nofun⟩
  nodup_children p := by
    rw [children_loose]
    exact List.nodup_nil
  not_own_parent n := by
    rw [parent?_loose]
    exact nofun
  alone_of_isFragment _ := parent?_loose size parts _

/-- With all nodes old, any forest agrees with one of loose nodes. -/
theorem agreeFrom_loose (f : Forest) : AgreeFrom f.nextId f (loose f.nextId f.partsMade) where
  nextId_eq := (nextId_loose ..).symm
  partsMade_eq := rfl
  le_nextId := Nat.le_of_eq (nextId_loose ..).symm
  node?_eq n hn := by
    rw [node?_eq_none_iff.mpr hn, node?_eq_none_iff.mpr]
    rwa [nextId_loose]
  hangs n x _ hx := by
    rw [node?_loose hx]
    exact ⟨nofun, nofun⟩

end Forest

/-! ## Running edits on newer nodes -/

namespace Edit

open Forest

/-- Two runs end in the same way, in forests that agree from `k` on. -/
inductive Alike (k : NodeId) {α : Type} :
    EStateM.Result Fault Forest α → EStateM.Result Fault Forest α → Prop
  | ok (a : α) {f g : Forest} (agree : AgreeFrom k f g) : Alike k (.ok a f) (.ok a g)
  | error (fault : Fault) {f g : Forest} (agree : AgreeFrom k f g) :
    Alike k (.error fault f) (.error fault g)

namespace Alike

variable {k n p : NodeId} {f g : Forest} {α β : Type}

/-- What goes on after runs that are alike is alike if it is so in all forests that agree. -/
theorem bind {x y : Edit α} {next after : α → Edit β} (h : Alike k (x f) (y g))
    (hnext : ∀ a f' g', AgreeFrom k f' g' → Alike k (next a f') (after a g')) :
    Alike k ((x >>= next) f) ((y >>= after) g) := by
  generalize hx : x f = rx at h
  generalize hy : y g = ry at h
  cases h with
  | ok a agree =>
      rw [bind_of_ok hx, bind_of_ok hy]
      exact hnext a _ _ agree
  | error fault agree =>
      rw [bind_of_error hx, bind_of_error hy]
      exact .error fault agree

/-- Runs that first look at the whole forest. -/
theorem get_bind {next after : Forest → Edit α} (h : Alike k (next f f) (after g g)) :
    Alike k ((get >>= next) f) ((get >>= after) g) := by
  rw [bind_of_ok (get_ok f), bind_of_ok (get_ok g)]
  exact h

theorem modify {change : Forest → Forest} (h : AgreeFrom k (change f) (change g)) :
    Alike k ((modify change : Edit Unit) f) ((modify change : Edit Unit) g) :=
  .ok () h

theorem look {view : Forest → Except Fault α} (h : AgreeFrom k f g) (hview : view f = view g) :
    Alike k (look view f) (look view g) := by
  cases hg : view g with
  | ok a =>
      rw [look_of_ok (hview.trans hg), look_of_ok hg]
      exact .ok a h
  | error fault =>
      rw [look_of_error (hview.trans hg), look_of_error hg]
      exact .error fault h

theorem position (h : AgreeFrom k f g) (hp : k ≤ p) (child : NodeId) :
    Alike k (position p child f) (position p child g) :=
  look h (by rw [h.children_eq hp])

theorem insertNode (h : AgreeFrom k f g) (hp : k ≤ p) (hn : k ≤ n) (place : Nat) :
    Alike k (insertNode p place n f) (insertNode p place n g) := by
  refine get_bind ?_
  rw [h.children_eq hp, h.parent?_eq hn]
  split
  · exact .error _ h
  · split
    · refine bind (position h hp n) fun old f' g' h' => ?_
      split
      · exact .ok () h'
      · refine bind (modify (h'.detach hn)) fun _ f'' g'' h'' => ?_
        exact modify (h''.attach hp hn _)
    · refine bind (modify (h.detach hn)) fun _ f' g' h' => ?_
      exact modify (h'.attach hp hn _)

theorem insertNodes {ns : List NodeId} (h : AgreeFrom k f g) (hp : k ≤ p)
    (hns : ∀ n ∈ ns, k ≤ n) (place : Nat) :
    Alike k (insertNodes p place ns f) (insertNodes p place ns g) := by
  induction ns generalizing f g place with
  | nil => exact .ok () h
  | cons n rest ih =>
      refine bind (insertNode h hp (hns n (List.mem_cons_self ..)) place) fun _ f' g' h' => ?_
      exact ih h' (fun m hm => hns m (List.mem_cons_of_mem n hm)) (place + 1)

theorem insert (h : AgreeFrom k f g) (hp : k ≤ p) (hn : k ≤ n) (place : Nat) :
    Alike k (insert p place n f) (insert p place n g) := by
  refine get_bind ?_
  rw [h.isFragment_eq hn, h.children_eq hn]
  split
  · exact .error _ h
  · split
    · exact insertNodes h hp (fun m hm => h.child_le hn hm) place
    · exact insertNode h hp hn place

theorem insertBefore (h : AgreeFrom k f g) (hp : k ≤ p) (hn : k ≤ n) (child : NodeId) :
    Alike k (insertBefore p n (some child) f) (insertBefore p n (some child) g) := by
  refine bind (modify h.counted) fun _ f₁ g₁ h₁ => ?_
  refine bind (modify (h₁.detach hn)) fun _ f₂ g₂ h₂ => ?_
  exact bind (position h₂ hp child) fun place f₃ g₃ h₃ => insert h₃ hp hn place

theorem replaceChild {new : NodeId} (h : AgreeFrom k f g) (hp : k ≤ p) (hnew : k ≤ new)
    (hn : k ≤ n) : Alike k (replaceChild p new n f) (replaceChild p new n g) := by
  refine bind (modify h.counted) fun _ f₁ g₁ h₁ => ?_
  refine bind (modify (h₁.detach hnew)) fun _ f₂ g₂ h₂ => ?_
  refine bind (position h₂ hp n) fun place f₃ g₃ h₃ => ?_
  exact bind (modify (h₃.detach hn)) fun _ f₄ g₄ h₄ => insert h₄ hp hnew place

end Alike

end Edit

end LiveTemplate
