import LiveTemplate.Proofs.Forest.Apart
import LiveTemplate.Proofs.Substitution.Numbering

/-!
# As many parts as markers

The markers of a template are counted on its trees when it is compiled, and bound on a copy of its
static trees when it is realized.  The two agree: `realize_counted` says that realizing trees
succeeds in any forest and gives one part for every marker that is counted on them.  The copy is
made of new nodes only, so it does not matter what has been done to the nodes that are there: the
counting is done in a forest of loose nodes (`realize_agrees`).
-/

namespace LiveTemplate

set_option autoImplicit false

open Forest

namespace Edit.Alike

variable {k : NodeId} {f g : Forest} {m : Markers}

theorem makePart (h : AgreeFrom k f g) (site : Site) :
    Alike k (makePart site f) (makePart site g) := by
  have hrun : Edit.makePart site f
      = .ok ⟨g.partsMade, site⟩ { f with partsMade := f.partsMade + 1 } := by
    rw [← h.partsMade_eq]
    rfl
  rw [hrun]
  exact .ok _ h.partMade

theorem bindNames {n : NodeId} (names : List (List Char)) (h : AgreeFrom k f g)
    (known : List (List Char × Part)) :
    Alike k (bindNames n known names f) (bindNames n known names g) := by
  induction names generalizing f g known with
  | nil => exact .ok [] h
  | cons name rest ih =>
      unfold Edit.bindNames
      cases known.lookup name with
      | some p => exact bind (ih h known) fun _ f' g' h' => .ok _ h'
      | none =>
          refine bind (makePart h _) fun p f₁ g₁ h₁ => ?_
          exact bind (ih h₁ ((name, p) :: known)) fun _ f₂ g₂ h₂ => .ok _ h₂

theorem bindAttributes {n : NodeId} (h : AgreeFrom k f g) (hn : k ≤ n) :
    Alike k (bindAttributes m n f) (bindAttributes m n g) := by
  refine get_bind ?_
  rw [h.attribute?_eq hn]
  cases g.attribute? n m.attributes with
  | none => exact .ok [] h
  | some names =>
      refine bind (bindNames _ h []) fun parts f₁ g₁ h₁ => ?_
      exact bind (modify (h₁.setAttribute n _ none)) fun _ f₂ g₂ h₂ => .ok _ h₂

theorem bindRange {n : NodeId} (h : AgreeFrom k f g) (hn : k ≤ n) :
    Alike k (bindRange m n f) (bindRange m n g) := by
  refine get_bind ?_
  rw [h.attribute?_eq hn, h.parent?_eq hn]
  cases g.attribute? n m.nodes with
  | none => exact .ok [] h
  | some value =>
      cases hparent : g.parent? n with
      | none => exact .ok [] h
      | some parent =>
          have hp := h.parent_le hn hparent
          have h₁ := h.grow (.leaf .sentinel)
          dsimp only
          rw [bind_of_ok (grow_ok _ f), bind_of_ok (grow_ok _ g), bind_of_ok (grow_ok _ _),
            bind_of_ok (grow_ok _ _), h₁.nextId_eq, h.nextId_eq]
          refine bind (replaceChild (h₁.grow _) hp h₁.le_nextId hn) fun _ f₂ g₂ h₂ => ?_
          refine bind (insertBefore h₂ hp h.le_nextId _) fun _ f₃ g₃ h₃ => ?_
          exact bind (makePart h₃ _) fun part f₄ g₄ h₄ => .ok _ h₄

theorem bindAll {places : List NodeId} (h : AgreeFrom k f g) (hplaces : ∀ n ∈ places, k ≤ n) :
    Alike k (bindAll m places f) (bindAll m places g) := by
  induction places generalizing f g with
  | nil => exact .ok [] h
  | cons n rest ih =>
      have hn := hplaces n (List.mem_cons_self ..)
      refine bind (bindAttributes h hn) fun noted f₁ g₁ h₁ => ?_
      refine bind (bindRange h₁ hn) fun ranged f₂ g₂ h₂ => ?_
      have hrest : ∀ x ∈ rest, k ≤ x := fun x hx => hplaces x (List.mem_cons_of_mem n hx)
      refine bind (ih h₂ hrest) fun others f₃ g₃ h₃ => ?_
      exact .ok _ h₃

theorem realize (h : AgreeFrom k f g) (m : Markers) (ts : List Tree) :
    Alike k (realize m ts f) (realize m ts g) := by
  refine get_bind ?_
  refine bind (modify (h.plantFragment ts)) fun _ f₁ g₁ h₁ => get_bind ?_
  have hplaces : f₁.marked m (f.nextId + 1) = g₁.marked m (g.nextId + 1) := by
    unfold marked
    rw [h.nextId_eq, h₁.nextId_eq]
    refine List.filter_congr fun n hn => ?_
    rw [h₁.element?_eq (Nat.le_trans (Nat.le_succ_of_le h.le_nextId) (mem_range'_sub.mp hn).1)]
  rw [hplaces, h.nextId_eq]
  refine bind (bindAll h₁ fun n hn => ?_) fun parts f₂ g₂ h₂ => .ok _ h₂
  exact Nat.le_trans (Nat.le_succ_of_le h.le_nextId) (mem_marked.mp hn).1.1

end Edit.Alike

/-- In any forest the new nodes are as they are when the trees are planted in a forest of loose
nodes and bound there. -/
theorem realize_agrees (f : Forest) (m : Markers) (ts : List Tree) :
    ∃ g made ranged parts f', Edit.realize m ts f = .ok (f.nextId, parts) f' ∧
      AgreeFrom f.nextId f' made ∧
      StandAll g ts (g.children f.nextId) (f.nextId + 1) g.nextId ∧
      Edit.Bound m g made (g.marked m (f.nextId + 1)) ranged ∧
      PartList.sites parts = sitesIn m g ranged (f.nextId + 1) g.nextId ∧
      PartList.Numbered f.partsMade f'.partsMade parts := by
  have hloose := linked_loose f.nextId f.partsMade
  have hstand := (planted_plantFragment hloose ts).stand
  obtain ⟨ranged, parts, made, hrun, hsites, hnumbered, hbound⟩ := realize_bound hloose m ts
  rw [nextId_loose] at hrun hsites hbound hstand
  have halike := Edit.Alike.realize (agreeFrom_loose f) m ts
  rw [hrun] at halike
  generalize hf : Edit.realize m ts f = result at halike
  cases halike with
  | @ok _ f' _ agree =>
      rw [← agree.partsMade_eq] at hnumbered
      exact ⟨_, made, ranged, parts, f', rfl, agree, hstand, hbound,
        hsites.trans (flatMap_boundSites hbound), hnumbered⟩

/-- Realizing trees gives one part for every marker counted on them, whatever the forest looks
like. -/
theorem realize_counted (f : Forest) {m : Markers} (hm : m.attributes ≠ m.nodes)
    (ts : List Tree) : ∃ parts f', Edit.realize m ts f = .ok (f.nextId, parts) f' ∧
      parts.length = m.count ts := by
  obtain ⟨g, made, ranged, parts, f', hrun, -, hstand, hbound, hsites, -⟩ :=
    realize_agrees f m ts
  refine ⟨parts, f', hrun, ?_⟩
  rw [← length_sitesIn_all hm hbound hstand (Nat.le_refl _), ← hsites, PartList.sites,
    List.length_map]

end LiveTemplate
