import LiveTemplate.Proofs.Forest.Linked

/-!
# What edits count

A forest keeps a tally of its mutations and of the texts that were made for strings.  `Edit.Counts`
says of an edit by how much it raises the tally when it succeeds.  Edits one behind the other add
up (`Edit.Counts.bind`).  Looking, taking out and putting in count nothing by themselves; inserting
a node counts one mutation, wherever it goes and, if it is a fragment, whatever it brings in.
-/

namespace LiveTemplate

set_option autoImplicit false

open Forest

/-- The tally after some more mutations and texts. -/
def Tally.plus (t : Tally) (mutations texts : Nat) : Tally :=
  { mutations := t.mutations + mutations, texts := t.texts + texts }

@[simp] theorem Tally.plus_plus (t : Tally) (k j k' j' : Nat) :
    (t.plus k j).plus k' j' = t.plus (k + k') (j + j') := by
  simp [plus, Nat.add_assoc]

@[simp] theorem Tally.mutations_plus (t : Tally) (k j : Nat) :
    (t.plus k j).mutations = t.mutations + k := rfl

@[simp] theorem Tally.texts_plus (t : Tally) (k j : Nat) : (t.plus k j).texts = t.texts + j := rfl

namespace Edit

variable {α β : Type} {k j k' j' : Nat}

/-- When the edit succeeds, it has counted so many mutations and so many texts. -/
def Counts (act : Edit α) (mutations texts : Nat) : Prop :=
  ∀ f a f', act f = .ok a f' → f'.tally = f.tally.plus mutations texts

/-- What follows on an edit counts on top of it. -/
theorem Counts.bind {act : Edit α} {next : α → Edit β} (h : Counts act k j)
    (hnext : ∀ a, Counts (next a) k' j') : Counts (act >>= next) (k + k') (j + j') := by
  intro f b f' hrun
  obtain ⟨a, f₁, hact, hrest⟩ := exists_of_bind_ok hrun
  rw [hnext a f₁ b f' hrest, h f a f₁ hact, Tally.plus_plus]

/-- Edits without texts add up their mutations. -/
theorem Counts.bind_mutations {act : Edit α} {next : α → Edit β} (h : Counts act k 0)
    (hnext : ∀ a, Counts (next a) k' 0) : Counts (act >>= next) (k + k') 0 := h.bind hnext

/-- What counts nothing adds nothing to the edit that it follows on. -/
theorem Counts.bind_free {act : Edit α} {next : α → Edit β} (h : Counts act k j)
    (hnext : ∀ a, Counts (next a) 0 0) : Counts (act >>= next) k j := h.bind hnext

/-- What follows on an edit that counts nothing counts as much as on its own. -/
theorem Counts.bind_zero {act : Edit α} {next : α → Edit β} (h : Counts act 0 0)
    (hnext : ∀ a, Counts (next a) k j) : Counts (act >>= next) k j := by
  simpa using h.bind hnext

theorem counts_pure (a : α) : Counts (pure a) 0 0 := by
  rintro f _ _ ⟨⟩
  rfl

/-- An edit that does not succeed may be said to count anything. -/
theorem counts_throw (fault : Fault) (k j : Nat) : Counts (throw fault : Edit α) k j := by
  rintro f _ _ ⟨⟩

theorem counts_get : Counts (get : Edit Forest) 0 0 := by
  rintro f _ _ ⟨⟩
  rfl

theorem counts_modify {change : Forest → Forest} (h : ∀ f, (change f).tally = f.tally.plus k j) :
    Counts (modify change : Edit Unit) k j := by
  rintro f _ _ ⟨⟩
  exact h f

theorem counts_look (view : Forest → Except Fault α) : Counts (look view) 0 0 := by
  refine counts_get.bind_zero fun f => ?_
  cases view f with
  | ok a => exact counts_pure a
  | error fault => exact counts_throw fault 0 0

/-! ## Edits of single nodes -/

theorem counts_detach (n : NodeId) : Counts (detach n) 0 0 :=
  counts_modify fun f => tally_detach f n

theorem counts_position (p n : NodeId) : Counts (position p n) 0 0 := counts_look _

theorem counts_insertNode (p : NodeId) (place : Nat) (n : NodeId) :
    Counts (insertNode p place n) 0 0 := by
  have hput : ∀ place : Nat, Counts (detach n >>= fun _ => modify (·.attach p place n)) 0 0 :=
    fun place => (counts_detach n).bind_zero fun _ =>
      counts_modify fun f => tally_attach f p place n
  refine counts_get.bind_zero fun f => ?_
  dsimp only
  split
  · exact counts_throw _ 0 0
  · split
    · refine (counts_position p n).bind_zero fun old => ?_
      split
      · exact counts_pure ()
      · exact hput _
    · exact hput _

theorem counts_insertNodes (p : NodeId) (place : Nat) (ns : List NodeId) :
    Counts (insertNodes p place ns) 0 0 := by
  induction ns generalizing place with
  | nil => exact counts_pure ()
  | cons n ns ih => exact (counts_insertNode p place n).bind_zero fun _ => ih (place + 1)

theorem counts_insert (p : NodeId) (place : Nat) (n : NodeId) : Counts (insert p place n) 0 0 := by
  refine counts_get.bind_zero fun f => ?_
  split
  · exact counts_throw _ 0 0
  · split
    · exact counts_insertNodes p place _
    · exact counts_insertNode p place n

theorem counts_countMutation : Counts countMutation 1 0 := counts_modify fun _ => rfl

theorem counts_insertBefore (p n : NodeId) (reference : Option NodeId) :
    Counts (insertBefore p n reference) 1 0 := by
  refine counts_countMutation.bind_free fun _ => ?_
  refine (counts_detach n).bind_zero fun _ => ?_
  cases reference with
  | none => exact counts_get.bind_zero fun f => counts_insert p _ n
  | some c => exact (counts_position p c).bind_zero fun place => counts_insert p place n

theorem counts_removeChild (p n : NodeId) : Counts (removeChild p n) 1 0 := by
  refine counts_countMutation.bind_free fun _ => ?_
  refine counts_get.bind_zero fun f => ?_
  split
  · exact counts_detach n
  · exact counts_throw _ 0 0

theorem counts_growText (s : String) : Counts (growText s) 0 1 := by
  have hgrow : Counts (grow (.leaf (.text s))) 0 0 :=
    counts_get.bind_zero fun f => (counts_modify fun g => tally_grow g _).bind_zero fun _ =>
      counts_pure f.nextId
  exact (counts_modify (k := 0) (j := 1) fun _ => rfl).bind_free fun _ => hgrow

end Edit

end LiveTemplate
