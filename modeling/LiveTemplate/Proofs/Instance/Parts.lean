import LiveTemplate.Binding
import LiveTemplate.Proofs.Forest.Linked

/-!
# Which parts are one

The parts of a copy are numbered as they are made, and a part is told from the others by its number.
`Numbered lo hi parts` says that parts made from `lo` up to `hi` are one exactly if they control the
same site, so that a list of them may repeat a part but never holds two parts of one site.

While the names in the marker of an element are bound, the parts made so far are known by name
(`Known`).  A name that is known gets its part again, and any other name a new one: `bindNames_ok`.
-/

namespace LiveTemplate

set_option autoImplicit false

/-! ## The sites of names -/

/-- A name stands for a site of one element, and no other name of that element does. -/
theorem Site.ofMarkedName_inj {n n' : NodeId} {name name' : List Char}
    (h : Site.ofMarkedName n name = Site.ofMarkedName n' name') : n = n' ∧ name = name' := by
  unfold Site.ofMarkedName at h
  cases name with
  | nil =>
      cases name' with
      | nil => exact ⟨Site.element.inj h, rfl⟩
      | cons c cs => exact nomatch h
  | cons c cs =>
      cases name' with
      | nil => exact nomatch h
      | cons c' cs' =>
          obtain ⟨hn, hname⟩ := Site.attribute.inj h
          exact ⟨hn, String.ofList_injective hname⟩

theorem Site.ofMarkedName_ne_range (n : NodeId) (name : List Char) (r : NodeRange) :
    Site.ofMarkedName n name ≠ .range r := by
  unfold Site.ofMarkedName
  split <;> exact nofun

namespace PartList

@[simp] theorem sites_cons (p : Part) (ps : PartList) : sites (p :: ps) = p.site :: sites ps := rfl

@[simp] theorem sites_append (ps qs : PartList) : sites (ps ++ qs) = sites ps ++ sites qs :=
  List.map_append

/-- The parts were made from `lo` up to `hi`, and those of one site are one part. -/
structure Numbered (lo hi : PartId) (ps : PartList) : Prop where
  le_id : ∀ p ∈ ps, lo ≤ p.id
  id_lt : ∀ p ∈ ps, p.id < hi
  id_eq_iff : ∀ p ∈ ps, ∀ q ∈ ps, p.id = q.id ↔ p.site = q.site

namespace Numbered

variable {lo mid hi : PartId} {ps qs : PartList}

theorem nil (lo hi : PartId) : Numbered lo hi [] := ⟨nofun, nofun, nofun⟩

theorem singleton (id : PartId) (site : Site) : Numbered id (id + 1) [⟨id, site⟩] := by
  refine ⟨?_, ?_, ?_⟩
  · intro p hp
    obtain rfl := List.mem_singleton.mp hp
    exact Nat.le_refl id
  · intro p hp
    obtain rfl := List.mem_singleton.mp hp
    exact Nat.lt_succ_self id
  · intro p hp q hq
    obtain rfl := List.mem_singleton.mp hp
    obtain rfl := List.mem_singleton.mp hq
    exact iff_of_true rfl rfl

theorem of_subset (h : Numbered lo hi ps) (hsub : qs ⊆ ps) : Numbered lo hi qs where
  le_id p hp := h.le_id p (hsub hp)
  id_lt p hp := h.id_lt p (hsub hp)
  id_eq_iff p hp q hq := h.id_eq_iff p (hsub hp) q (hsub hq)

/-- Parts that are made later are other parts, and they are to have other sites. -/
theorem append (h : Numbered lo mid ps) (h' : Numbered mid hi qs) (hlo : lo ≤ mid)
    (hhi : mid ≤ hi) (hapart : ∀ p ∈ ps, ∀ q ∈ qs, p.site ≠ q.site) :
    Numbered lo hi (ps ++ qs) := by
  have hlt : ∀ p ∈ ps, ∀ q ∈ qs, p.id < q.id := fun p hp q hq =>
    Nat.lt_of_lt_of_le (h.id_lt p hp) (h'.le_id q hq)
  refine ⟨?_, ?_, ?_⟩
  · intro p hp
    rcases List.mem_append.mp hp with hp | hp
    · exact h.le_id p hp
    · exact Nat.le_trans hlo (h'.le_id p hp)
  · intro p hp
    rcases List.mem_append.mp hp with hp | hp
    · exact Nat.lt_of_lt_of_le (h.id_lt p hp) hhi
    · exact h'.id_lt p hp
  · intro p hp q hq
    rcases List.mem_append.mp hp with hp | hp <;> rcases List.mem_append.mp hq with hq | hq
    · exact h.id_eq_iff p hp q hq
    · exact iff_of_false (Nat.ne_of_lt (hlt p hp q hq)) (hapart p hp q hq)
    · exact iff_of_false (Nat.ne_of_gt (hlt q hq p hp)) (Ne.symm (hapart q hq p hp))
    · exact h'.id_eq_iff p hp q hq

end Numbered

end PartList

namespace Edit

open PartList

/-- The parts made from `lo` up to `hi` for names in the marker of an element, each with the name
that it stands for. -/
structure Known (n : NodeId) (lo hi : PartId) (known : List (List Char × Part)) : Prop where
  site_eq : ∀ k ∈ known, k.2.site = .ofMarkedName n k.1
  numbered : Numbered lo hi (known.map (·.2))

namespace Known

variable {n : NodeId} {lo hi : PartId} {known : List (List Char × Part)} {name : List Char}

theorem nil (n : NodeId) (lo hi : PartId) : Known n lo hi [] := ⟨nofun, Numbered.nil lo hi⟩

/-- The part of a name that is known. -/
theorem of_lookup {p : Part} (h : Known n lo hi known) (hname : known.lookup name = some p) :
    p ∈ known.map (·.2) ∧ p.site = .ofMarkedName n name := by
  obtain ⟨front, back, hknown, -⟩ := List.lookup_eq_some_iff.mp hname
  have hmem : (name, p) ∈ known := by
    rw [hknown]
    exact List.mem_append_right front (List.mem_cons_self ..)
  exact ⟨List.mem_map_of_mem hmem, h.site_eq _ hmem⟩

/-- A name that is not known gets a part of its own. -/
theorem cons (h : Known n lo hi known) (hlo : lo ≤ hi) (hname : known.lookup name = none) :
    Known n lo (hi + 1) ((name, ⟨hi, .ofMarkedName n name⟩) :: known) := by
  have hother : ∀ p ∈ known.map (·.2), p.site ≠ .ofMarkedName n name := by
    intro p hp hsite
    obtain ⟨k, hk, rfl⟩ := List.mem_map.mp hp
    have hne := List.lookup_eq_none_iff.mp hname k hk
    rw [h.site_eq k hk] at hsite
    rw [(Site.ofMarkedName_inj hsite).2, bne_self_eq_false] at hne
    exact nomatch hne
  refine ⟨?_, ?_⟩
  · intro k hk
    rcases List.mem_cons.mp hk with rfl | hk
    · rfl
    · exact h.site_eq k hk
  · have hmore := h.numbered.append (Numbered.singleton hi (.ofMarkedName n name)) hlo
      (Nat.le_succ hi) fun p hp q hq => by
        rw [List.mem_singleton.mp hq]
        exact hother p hp
    refine hmore.of_subset fun p hp => ?_
    rcases List.mem_cons.mp hp with rfl | hp
    · exact List.mem_append_right _ (List.mem_singleton_self _)
    · exact List.mem_append_left _ hp

end Known

/-- The names in a marker are bound to parts of their element, equal names to one part. -/
theorem bindNames_ok {n : NodeId} {lo : PartId} (names : List (List Char)) :
    ∀ {f : Forest} {known : List (List Char × Part)}, lo ≤ f.partsMade →
    Known n lo f.partsMade known →
    ∃ parts made, bindNames n known names f = .ok parts { f with partsMade := made } ∧
      f.partsMade ≤ made ∧ sites parts = names.map (Site.ofMarkedName n) ∧
      Numbered lo made (known.map (·.2) ++ parts) := by
  induction names with
  | nil =>
      intro f known _ hknown
      refine ⟨[], f.partsMade, rfl, Nat.le_refl _, rfl, ?_⟩
      rw [List.append_nil]
      exact hknown.numbered
  | cons name names ih =>
      intro f known hlo hknown
      cases hname : known.lookup name with
      | some p =>
          obtain ⟨hmem, hsite⟩ := hknown.of_lookup hname
          obtain ⟨parts, made, hrun, hmade, hsites, hnumbered⟩ := ih hlo hknown
          refine ⟨p :: parts, made, ?_, hmade, ?_, ?_⟩
          · unfold bindNames
            rw [hname]
            exact bind_of_ok hrun
          · rw [sites_cons, hsite, hsites, List.map_cons]
          · refine hnumbered.of_subset (List.append_subset.mpr ⟨List.subset_append_left _ _, ?_⟩)
            refine List.cons_subset.mpr ⟨List.mem_append_left _ hmem, ?_⟩
            exact List.subset_append_right _ _
      | none =>
          let made : Part := ⟨f.partsMade, .ofMarkedName n name⟩
          let f₁ : Forest := { f with partsMade := f.partsMade + 1 }
          have hmake : makePart (.ofMarkedName n name) f = .ok made f₁ := rfl
          obtain ⟨parts, top, hrun, htop, hsites, hnumbered⟩ :=
            ih (f := f₁) (Nat.le_succ_of_le hlo) (hknown.cons hlo hname)
          refine ⟨made :: parts, top, ?_, Nat.le_of_succ_le htop, ?_, ?_⟩
          · unfold bindNames
            rw [hname]
            exact (bind_of_ok hmake).trans (bind_of_ok hrun)
          · rw [sites_cons, hsites, List.map_cons]
          · refine hnumbered.of_subset (List.append_subset.mpr ⟨?_, List.cons_subset.mpr ⟨?_, ?_⟩⟩)
            · exact List.subset_append_of_subset_left _ (List.subset_cons_self _ _)
            · exact List.mem_append_left _ (List.mem_cons_self ..)
            · exact List.subset_append_right _ _

end Edit

end LiveTemplate
