import LiveTemplate.Forest.Basic

/-!
# What the operations on a forest do to its views

A forest is looked at through `node?`, `parent?` and `children`.  The lemmas below say, for every
operation, what each view shows afterwards, so that nothing else has to look into the array of
nodes.
-/

namespace LiveTemplate

set_option autoImplicit false

namespace Forest

variable {f : Forest} {n m p q : NodeId}

/-! ## Single nodes -/

theorem node?_modify (f : Forest) (n m : NodeId) (change : Node → Node) :
    (f.modify n change).node? m = if n = m then (f.node? m).map change else f.node? m := by
  simp only [node?, modify, Array.getElem?_modify]

theorem node?_grow_self (f : Forest) (kind : NodeKind) :
    (f.grow kind).node? f.nextId = some { kind } := by
  simp [node?, grow, nextId]

theorem node?_grow_of_ne (kind : NodeKind) (h : n ≠ f.nextId) :
    (f.grow kind).node? n = f.node? n := by
  simp only [node?, grow, nextId] at *
  rw [Array.getElem?_push]
  simp [h]

theorem node?_eq_none_iff : f.node? n = none ↔ f.nextId ≤ n := by
  simp [node?, nextId]

/-! ## How many nodes there are -/

@[simp] theorem nextId_modify (f : Forest) (n : NodeId) (change : Node → Node) :
    (f.modify n change).nextId = f.nextId := by
  simp [nextId, modify]

@[simp] theorem nextId_grow (f : Forest) (kind : NodeKind) :
    (f.grow kind).nextId = f.nextId + 1 := by
  simp [nextId, grow]

@[simp] theorem nextId_detach (f : Forest) (n : NodeId) : (f.detach n).nextId = f.nextId := by
  unfold detach
  split <;> simp

@[simp] theorem nextId_attach (f : Forest) (parent : NodeId) (position : Nat) (n : NodeId) :
    (f.attach parent position n).nextId = f.nextId := by
  simp [attach]

/-! ## The tally -/

@[simp] theorem tally_grow (f : Forest) (kind : NodeKind) : (f.grow kind).tally = f.tally := rfl

@[simp] theorem tally_detach (f : Forest) (n : NodeId) : (f.detach n).tally = f.tally := by
  unfold detach
  split <;> rfl

@[simp] theorem tally_attach (f : Forest) (parent : NodeId) (position : Nat) (n : NodeId) :
    (f.attach parent position n).tally = f.tally := rfl

/-! ## Taking a node out -/

/-- A node that stands alone is not changed by being taken out. -/
theorem detach_of_parent?_eq_none (h : f.parent? n = none) : f.detach n = f := by
  unfold detach
  rw [h]

/-- The parent loses the child that is taken out. -/
theorem children_detach (h : f.parent? n = some p) :
    (f.detach n).children q = if q = p then (f.children q).erase n else f.children q := by
  unfold detach
  rw [h]
  simp only [children, node?_modify]
  cases hq : f.node? q with
  | none => by_cases hn : n = q <;> by_cases hp : p = q <;> simp [hn, hp]
  | some x =>
    by_cases hp : p = q
    · subst hp
      by_cases hn : n = p <;> simp [hn]
    · have hp' : ¬ q = p := fun e => hp e.symm
      by_cases hn : n = q <;> simp [hn, hp, hp']

/-- Taking a node out changes no other parent. -/
theorem parent?_detach : (f.detach n).parent? m = if n = m then none else f.parent? m := by
  unfold detach
  cases h : f.parent? n with
  | none =>
    by_cases hm : n = m
    · subst hm
      simp [h]
    · simp [hm]
  | some p =>
    simp only [parent?, node?_modify] at h ⊢
    by_cases hm : n = m
    · subst hm
      cases hq : f.node? n <;> by_cases hp : p = n <;> simp [hp]
    · cases hq : f.node? m <;> by_cases hp : p = m <;> simp [hm, hp]

/-- A node is still of its kind when one has been taken out. -/
theorem kind_detach : ((f.detach n).node? m).map (·.kind) = (f.node? m).map (·.kind) := by
  unfold detach
  split
  · rfl
  · rename_i p _
    simp only [node?_modify]
    cases hq : f.node? m <;> by_cases hn : n = m <;> by_cases hp : p = m <;> simp [hn, hp]

/-! ## Putting a node in -/

/-- The parent gains a child at the position given. -/
theorem children_attach {position : Nat} (hp : p < f.nextId) :
    (f.attach p position n).children q =
      if q = p then (f.children q).insertIdx position n else f.children q := by
  simp only [attach, children, node?_modify]
  cases hq : f.node? q with
  | none =>
    have hqp : ¬ q = p := fun e => by
      subst e
      exact absurd (node?_eq_none_iff.mp hq) (Nat.not_le.mpr hp)
    by_cases hn : n = q <;> simp [hn, hqp]
  | some x =>
    by_cases h : p = q
    · subst h
      by_cases hn : n = p <;> simp [hn]
    · have h' : ¬ q = p := fun e => h e.symm
      by_cases hn : n = q <;> simp [hn, h, h']

/-- The node that is put in gets its parent, and no other node does. -/
theorem parent?_attach {position : Nat} (hn : n < f.nextId) :
    (f.attach p position n).parent? m = if n = m then some p else f.parent? m := by
  simp only [attach, parent?, node?_modify]
  cases hq : f.node? m with
  | none =>
    have hnm : ¬ n = m := fun e => by
      subst e
      exact absurd (node?_eq_none_iff.mp hq) (Nat.not_le.mpr hn)
    simp [hnm]
  | some x => by_cases h : n = m <;> by_cases hp : p = m <;> simp [h, hp]

/-- A node is still of its kind when one has been put in. -/
theorem kind_attach {position : Nat} :
    ((f.attach p position n).node? m).map (·.kind) = (f.node? m).map (·.kind) := by
  simp only [attach, node?_modify]
  cases hq : f.node? m <;> by_cases hn : n = m <;> by_cases hp : p = m <;> simp [hn, hp]

end Forest

end LiveTemplate
