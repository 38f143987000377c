import LiveTemplate.Proofs.Nesting.Layout
import LiveTemplate.Proofs.Range.Reconciled

/-!
# Placing in a layout

Giving a range new entries moves blocks of nodes: the new entries come from wherever they were held,
and the instances among the old ones that are not kept go home.  `Layout.place` says what the layout
is then.  Its spans are found by one substitution on lists of siblings, `Layout.resettle`: the moved
nodes leave their places, and the range start is followed by the new content.

The substitution is right as long as no instance that is dropped is torn apart, that is, as long as
the new entries are not taken out of it: see `Placeable`.  Then the new layout is coherent again
(`Placeable.coherent`), and the lists of children follow it (`Placeable.lists`).
-/

namespace LiveTemplate

set_option autoImplicit false

namespace Layout

variable {L : Layout} {s m n x : NodeId} {entries : List Entry}

/-- The nodes of the instances among entries. -/
def wanted (L : Layout) (entries : List Entry) : List NodeId :=
  entries.flatMap fun
    | .nest home => L.span home
    | .text _ => []

/-- The nodes of entries. -/
def content (L : Layout) (entries : List Entry) : List NodeId :=
  entries.flatMap (Entry.nodes L.span)

/-- The nodes that leave their places when the range that starts at `s` is given new entries. -/
def moved (L : Layout) (s : NodeId) (entries : List Entry) : List NodeId :=
  L.gap s ++ L.wanted entries

/-- What stands in the place of a node when the range that starts at `s` is given new entries. -/
def resettle (L : Layout) (s : NodeId) (entries : List Entry) (n : NodeId) : List NodeId :=
  if n = s then s :: L.content entries else if n ∈ L.moved s entries then [] else [n]

/-- The layout in which the range that starts at `s` holds the given entries.  What is below a node
that moves is moved along with it. -/
def place (L : Layout) (s : NodeId) (entries : List Entry) : Layout where
  skeleton := L.skeleton
  held := fun m => if m = s then entries else (L.held m).filter (· ∉ entries)
  span := fun n =>
    if (L.skeleton n).any (· ∈ L.moved s entries) then L.span n
    else (L.span n).flatMap (L.resettle s entries)

/-- Entries that a range may be given without tearing an instance apart: their texts are new or its
own; their instances do not hold the range and have no nodes in common; and none of them is taken
out of an instance that the range drops. -/
structure Placeable (L : Layout) (s : NodeId) (entries : List Entry) : Prop where
  start : ∃ n front next back, L.skeleton n = front ++ s :: next :: back
  outside : ∀ {v : NodeId}, .nest v ∈ entries → s ∉ L.span v
  apart : ∀ {v v' x : NodeId}, .nest v ∈ entries → .nest v' ∈ entries → x ∈ L.span v →
    x ∈ L.span v' → v = v'
  whole : ∀ {home v x : NodeId}, .nest home ∈ L.held s → .nest home ∉ entries →
    .nest v ∈ entries → x ∈ L.span home → x ∉ L.span v
  text_own : ∀ {x m : NodeId}, .text x ∈ entries → .text x ∈ L.held m → m = s
  text_not_skeleton : ∀ {x n : NodeId}, .text x ∈ entries → x ∉ L.skeleton n
  text_bare : ∀ {x : NodeId}, .text x ∈ entries → L.skeleton x = []

theorem mem_wanted : x ∈ L.wanted entries ↔ ∃ v, .nest v ∈ entries ∧ x ∈ L.span v := by
  unfold wanted
  rw [List.mem_flatMap]
  constructor
  · rintro ⟨e, he, hx⟩
    cases e with
    | text n => exact nomatch hx
    | nest v => exact ⟨v, he, hx⟩
  · rintro ⟨v, hv, hx⟩
    exact ⟨_, hv, hx⟩

theorem mem_moved : x ∈ L.moved s entries ↔
    x ∈ L.gap s ∨ ∃ v, .nest v ∈ entries ∧ x ∈ L.span v := by
  unfold moved
  rw [List.mem_append, mem_wanted]

theorem span_subset_moved {v : NodeId} (hv : .nest v ∈ entries) :
    L.span v ⊆ L.moved s entries := fun _ hx => mem_moved.mpr (.inr ⟨v, hv, hx⟩)

@[simp] theorem resettle_start : L.resettle s entries s = s :: L.content entries := if_pos rfl

theorem resettle_of_not_mem (hs : n ≠ s) (hn : n ∉ L.moved s entries) :
    L.resettle s entries n = [n] := by
  unfold resettle
  rw [if_neg hs, if_neg hn]

/-- Lists of moved nodes are left empty. -/
theorem flatMap_resettle_eq_nil {l : List NodeId} (hs : s ∉ l) (hl : l ⊆ L.moved s entries) :
    l.flatMap (L.resettle s entries) = [] := by
  rw [List.flatMap_eq_nil_iff]
  intro x hx
  have hne : x ≠ s := by
    rintro rfl
    exact hs hx
  unfold resettle
  rw [if_neg hne, if_pos (hl hx)]

/-! ## What every range holds -/

@[simp] theorem held_place_start : (L.place s entries).held s = entries := if_pos rfl

theorem held_place_of_ne (hm : m ≠ s) :
    (L.place s entries).held m = (L.held m).filter (· ∉ entries) := if_neg hm

theorem mem_held_place {e : Entry} : e ∈ (L.place s entries).held m ↔
    m = s ∧ e ∈ entries ∨ m ≠ s ∧ e ∈ L.held m ∧ e ∉ entries := by
  by_cases hm : m = s
  · subst hm
    rw [held_place_start]
    simp
  · rw [held_place_of_ne hm, List.mem_filter]
    simp [hm]

/-- What is in one range at most still is. -/
theorem held_place_unique {e : Entry} {m' : NodeId}
    (hunique : e ∈ L.held m → e ∈ L.held m' → m = m') (hm : e ∈ (L.place s entries).held m)
    (hm' : e ∈ (L.place s entries).held m') : m = m' := by
  rcases mem_held_place.mp hm with ⟨rfl, hin⟩ | ⟨-, hheld, hout⟩
  · rcases mem_held_place.mp hm' with ⟨rfl, -⟩ | ⟨-, -, hout⟩
    · rfl
    · exact absurd hin hout
  · rcases mem_held_place.mp hm' with ⟨-, hin⟩ | ⟨-, hheld', -⟩
    · exact absurd hin hout
    · exact hunique hheld hheld'

/-! ## Moved nodes move with what is below them -/

namespace Coherent

variable (hL : L.Coherent)

include hL

theorem not_mem_own_gap : m ∉ L.gap m := by
  intro hm
  have hgrow := (hL.gap_infix_gap hm).length_le
  rw [List.length_cons] at hgrow
  exact Nat.not_succ_le_self _ hgrow

theorem gap_subset_moved (hm : m ∈ L.moved s entries) : L.gap m ⊆ L.moved s entries := by
  intro x hx
  rw [mem_moved] at hm ⊢
  rcases hm with hm | ⟨v, hv, hm⟩
  · exact .inl ((hL.gap_infix_gap hm).subset (List.mem_cons_of_mem m hx))
  · exact .inr ⟨v, hv, hL.gap_subset_span hm hx⟩

theorem span_subset_moved_of_mem (hx : x ∈ L.skeleton n) (hm : x ∈ L.moved s entries) :
    L.span n ⊆ L.moved s entries := by
  intro y hy
  rw [mem_moved] at hm ⊢
  rcases hm with hm | ⟨v, hv, hm⟩
  · exact .inl (hL.span_subset_gap hx hm hy)
  · exact .inr ⟨v, hv, (hL.span_infix_span hx hm).subset hy⟩

/-- What moves from behind a node that stays is the old content or an instance among the new
entries. -/
theorem from_moved (hfrom : L.From m x) (hx : x ∈ L.moved s entries) :
    m = s ∨ m ∈ L.moved s entries ∨ ∃ v, .nest v ∈ entries ∧ x ∈ L.skeleton v := by
  rw [mem_moved] at hx ⊢
  rcases hx with hx | ⟨v, hv, hx⟩
  · rcases hL.origin_gap hx with hfrom' | ⟨q, hq, hfrom'⟩
    · exact .inl (hL.from_unique hfrom hfrom')
    · exact .inr (.inl (.inl (hL.from_unique hfrom hfrom' ▸ hq)))
  · rcases hL.origin hx with hskeleton | ⟨q, hq, hfrom'⟩
    · exact .inr (.inr ⟨v, hv, hskeleton⟩)
    · exact .inr (.inl (.inr ⟨v, hv, hL.from_unique hfrom hfrom' ▸ hq⟩))

end Coherent

/-! ## Spans of the new layout -/

theorem span_place_of_moved (hx : x ∈ L.skeleton n) (hm : x ∈ L.moved s entries) :
    (L.place s entries).span n = L.span n :=
  if_pos (List.any_eq_true.mpr ⟨x, hx, by simpa using hm⟩)

theorem span_place_of_not_moved (hn : ∀ x ∈ L.skeleton n, x ∉ L.moved s entries) :
    (L.place s entries).span n = (L.span n).flatMap (L.resettle s entries) := by
  apply if_neg
  rw [List.any_eq_true]
  rintro ⟨x, hx, hm⟩
  exact hn x hx (by simpa using hm)

/-- A span all of whose nodes move stays as it is. -/
theorem span_place_eq (hL : L.Coherent) (hn : L.span n ⊆ L.moved s entries) :
    (L.place s entries).span n = L.span n := by
  cases hskeleton : L.skeleton n with
  | nil =>
      have hempty := hL.span_eq_nil_iff.mpr hskeleton
      rw [span_place_of_not_moved (by rw [hskeleton]; exact nofun), hempty]
      rfl
  | cons x rest =>
      have hx : x ∈ L.skeleton n := by simp [hskeleton]
      exact span_place_of_moved hx (hn (hL.mem_span_of_mem_skeleton hx))

/-- The entries are in their range. -/
theorem gap_place_start (hL : L.Coherent) : (L.place s entries).gap s = L.content entries := by
  unfold gap content
  rw [held_place_start]
  refine List.flatMap_congr fun e he => ?_
  cases e with
  | text n => rfl
  | nest v => exact span_place_eq hL (span_subset_moved he)

namespace Placeable

variable (hL : L.Coherent) (h : L.Placeable s entries)

include hL h

theorem start_not_mem_moved : s ∉ L.moved s entries := by
  rw [mem_moved]
  rintro (hs | ⟨v, hv, hs⟩)
  · exact hL.not_mem_own_gap hs
  · exact h.outside hv hs

/-- An instance among the new entries is not held by a node that moves along, unless it has no
nodes. -/
theorem span_eq_nil_of_nested {v : NodeId} (hm : m ∈ L.moved s entries)
    (hheld : .nest v ∈ L.held m) (hv : .nest v ∈ entries) : L.span v = [] := by
  have hspan := (span_infix_gap hheld).subset
  have hwithin : ∀ v', .nest v' ∈ entries → m ∈ L.span v' → L.span v = [] := by
    intro v' hv' hm'
    rw [List.eq_nil_iff_forall_not_mem]
    intro x hx
    obtain rfl := h.apart hv hv' hx (hL.gap_subset_span hm' (hspan hx))
    exact hL.not_held_within hm' hheld
  rcases mem_moved.mp hm with hm | ⟨v', hv', hm⟩
  · rcases mem_gap.mp hm with htext | ⟨home, hhome, hm⟩
    · rw [List.eq_nil_iff_forall_not_mem]
      intro x hx
      have hgap := hspan hx
      rw [hL.gap_of_text htext] at hgap
      exact nomatch hgap
    · by_cases hkept : .nest home ∈ entries
      · exact hwithin home hkept hm
      · rw [List.eq_nil_iff_forall_not_mem]
        intro x hx
        exact h.whole hhome hkept hv (hL.gap_subset_span hm (hspan hx)) hx
  · exact hwithin v' hv' hm

/-- A node that moves takes along what is behind it. -/
theorem gap_place_of_moved (hm : m ∈ L.moved s entries) :
    (L.place s entries).gap m = L.gap m := by
  have hne : m ≠ s := by
    rintro rfl
    exact h.start_not_mem_moved hL hm
  unfold gap
  rw [held_place_of_ne hne, flatMap_filter_eq]
  refine List.flatMap_congr fun e he => ?_
  cases e with
  | text x =>
      have hout : .text x ∉ entries := fun hx => hne (h.text_own hx he)
      rw [if_pos (by simpa using hout)]
      rfl
  | nest v =>
      by_cases hv : .nest v ∈ entries
      · rw [if_neg (by simpa using hv)]
        exact (h.span_eq_nil_of_nested hL hm he hv).symm
      · rw [if_pos (by simpa using hv)]
        exact span_place_eq hL fun x hx => hL.gap_subset_moved hm ((span_infix_gap he).subset hx)

/-- Behind a node that stays, the moved nodes are gone and the range start has its new content. -/
theorem gap_place_of_not_moved (hm : m ∉ L.moved s entries) (hne : m ≠ s) :
    (L.place s entries).gap m = (L.gap m).flatMap (L.resettle s entries) := by
  unfold gap
  rw [held_place_of_ne hne, flatMap_filter_eq, List.flatMap_assoc]
  refine List.flatMap_congr fun e he => ?_
  cases e with
  | text x =>
      have hout : .text x ∉ entries := fun hx => hne (h.text_own hx he)
      have hxs : x ≠ s := by
        rintro rfl
        obtain ⟨n, front, next, back, hsplit⟩ := h.start
        exact hL.text_not_skeleton he (n := n) (by simp [hsplit])
      have hxm : x ∉ L.moved s entries := by
        intro hx
        rcases hL.from_moved (.inl he) hx with rfl | hmem | ⟨v, -, hskeleton⟩
        · exact hne rfl
        · exact hm hmem
        · exact hL.text_not_skeleton he hskeleton
      rw [if_pos (by simpa using hout)]
      show [x] = [x].flatMap _
      rw [List.flatMap_singleton, resettle_of_not_mem hxs hxm]
  | nest v =>
      show (if decide (.nest v ∉ entries) = true then (L.place s entries).span v else [])
        = (L.span v).flatMap _
      by_cases hv : .nest v ∈ entries
      · rw [if_neg (by simpa using hv),
          flatMap_resettle_eq_nil (h.outside hv) (span_subset_moved hv)]
      · rw [if_pos (by simpa using hv)]
        refine span_place_of_not_moved fun x hx hmoved => ?_
        rcases hL.from_moved (.inr ⟨v, he, hx⟩) hmoved with rfl | hmem | ⟨v', hv', hskeleton⟩
        · exact hne rfl
        · exact hm hmem
        · exact hv (hL.skeleton_unique hx hskeleton ▸ hv')

/-- Every node that stays is resettled together with what is behind it. -/
theorem block_place (hm : m ∉ L.moved s entries) :
    m :: (L.place s entries).gap m = (m :: L.gap m).flatMap (L.resettle s entries) := by
  rw [List.flatMap_cons]
  by_cases hs : m = s
  · subst hs
    have hgone : (L.gap m).flatMap (L.resettle m entries) = [] :=
      flatMap_resettle_eq_nil hL.not_mem_own_gap fun x hx => mem_moved.mpr (.inl hx)
    rw [resettle_start, gap_place_start hL, hgone, List.append_nil]
  · rw [resettle_of_not_mem hs hm, h.gap_place_of_not_moved hL hm hs]
    rfl

/-- The new layout is coherent. -/
theorem coherent : (L.place s entries).Coherent where
  span_eq := by
    intro n
    show _ = (L.skeleton n).flatMap _
    by_cases hmoved : ∃ x ∈ L.skeleton n, x ∈ L.moved s entries
    · obtain ⟨x, hx, hm⟩ := hmoved
      rw [span_place_of_moved hx hm, hL.span_eq]
      refine List.flatMap_congr fun m hmem => ?_
      rw [h.gap_place_of_moved hL
        (hL.span_subset_moved_of_mem hx hm (hL.mem_span_of_mem_skeleton hmem))]
    · have hnone : ∀ x ∈ L.skeleton n, x ∉ L.moved s entries := fun x hx hm =>
        hmoved ⟨x, hx, hm⟩
      rw [span_place_of_not_moved hnone, hL.span_eq, List.flatMap_assoc]
      exact List.flatMap_congr fun m hmem => (h.block_place hL (hnone m hmem)).symm
  skeleton_nodup := hL.skeleton_nodup
  skeleton_unique := hL.skeleton_unique
  text_once := held_place_unique hL.text_once
  nest_once := held_place_unique hL.nest_once
  text_not_skeleton := by
    intro x m n hx
    rcases mem_held_place.mp hx with ⟨-, hin⟩ | ⟨-, hheld, -⟩
    · exact h.text_not_skeleton hin
    · exact hL.text_not_skeleton hheld
  text_bare := by
    intro x m hx
    rcases mem_held_place.mp hx with ⟨-, hin⟩ | ⟨-, hheld, -⟩
    · exact h.text_bare hin
    · exact hL.text_bare hheld
  start := by
    intro m hm
    by_cases hs : m = s
    · rw [hs]
      exact h.start
    · refine hL.start fun hnil => hm ?_
      rw [held_place_of_ne hs, hnil]
      rfl

end Placeable

/-! ## Lists of children -/

/-- The lists of children follow a layout: a fragment that is held somewhere has none, and every
other node has those of its span; and every span stands together among the children of some
node. -/
structure Lists (L : Layout) (children : NodeId → List NodeId) : Prop where
  of_held : ∀ {q : NodeId}, L.Held q → children q = []
  of_not_held : ∀ {q : NodeId}, ¬ L.Held q → children q = L.span q
  span_infix : ∀ n, ∃ p, L.span n <:+: children p

/-- The fragments whose instances the range that starts at `s` drops. -/
def Drops (L : Layout) (s : NodeId) (entries : List Entry) (home : NodeId) : Prop :=
  .nest home ∈ L.held s ∧ .nest home ∉ entries

theorem held_place_iff {q : NodeId} : (L.place s entries).Held q ↔
    .nest q ∈ entries ∨ ∃ m, m ≠ s ∧ .nest q ∈ L.held m ∧ .nest q ∉ entries := by
  constructor
  · rintro ⟨m, hm⟩
    rcases mem_held_place.mp hm with ⟨-, hin⟩ | hother
    · exact .inl hin
    · exact .inr ⟨m, hother⟩
  · rintro (hin | ⟨m, hother⟩)
    · exact ⟨s, mem_held_place.mpr (.inl ⟨rfl, hin⟩)⟩
    · exact ⟨m, mem_held_place.mpr (.inr hother)⟩

/-- When the moved nodes are resettled and the dropped instances come home, the lists of children
follow the new layout. -/
theorem Placeable.lists {children homecoming : NodeId → List NodeId} (hL : L.Coherent)
    (h : L.Placeable s entries) (hchildren : L.Lists children)
    (hdropped : ∀ q, L.Drops s entries q → homecoming q = L.span q)
    (hother : ∀ q, ¬ L.Drops s entries q → homecoming q = []) :
    (L.place s entries).Lists
      fun q => (children q).flatMap (L.resettle s entries) ++ homecoming q where
  of_held := by
    intro q hq
    have hnot : ¬ L.Drops s entries q := by
      rintro ⟨hheld, hout⟩
      rcases held_place_iff.mp hq with hin | ⟨m, hm, hheld', -⟩
      · exact hout hin
      · exact hm (hL.nest_once hheld' hheld)
    rw [hother q hnot, List.append_nil]
    by_cases hheld : L.Held q
    · rw [hchildren.of_held hheld]
      rfl
    · rw [hchildren.of_not_held hheld]
      rcases held_place_iff.mp hq with hin | ⟨m, -, hm, -⟩
      · exact flatMap_resettle_eq_nil (h.outside hin) (span_subset_moved hin)
      · exact absurd ⟨m, hm⟩ hheld
  of_not_held := by
    intro q hq
    rw [held_place_iff, not_or, not_exists] at hq
    obtain ⟨hout, hnowhere⟩ := hq
    by_cases hheld : L.Held q
    · obtain ⟨m, hm⟩ := hheld
      obtain rfl : m = s := by
        by_contra hne
        exact hnowhere m ⟨hne, hm, hout⟩
      rw [hchildren.of_held ⟨m, hm⟩, hdropped q ⟨hm, hout⟩]
      refine (span_place_eq hL fun x hx => mem_moved.mpr (.inl ?_)).symm
      exact (span_infix_gap hm).subset hx
    · rw [hchildren.of_not_held hheld, hother q fun hdrops => hheld ⟨s, hdrops.1⟩, List.append_nil]
      refine (span_place_of_not_moved fun x hx hmoved => ?_).symm
      rcases mem_moved.mp hmoved with hgap | ⟨v, hv, hspan⟩
      · rcases hL.origin_gap hgap with hfrom | ⟨p, -, hfrom⟩
        · exact hheld ⟨s, hL.nest_of_from hfrom hx⟩
        · exact hheld ⟨p, hL.nest_of_from hfrom hx⟩
      · rcases hL.origin hspan with hskeleton | ⟨p, -, hfrom⟩
        · exact hout (hL.skeleton_unique hx hskeleton ▸ hv)
        · exact hheld ⟨p, hL.nest_of_from hfrom hx⟩
  span_infix := by
    have hcontent : ∀ v, .nest v ∈ entries → ∃ p, L.span v <:+:
        (children p).flatMap (L.resettle s entries) ++ homecoming p := by
      intro v hv
      obtain ⟨n, front, next, back, hsplit⟩ := h.start
      have hs : s ∈ L.span n := hL.mem_span_of_mem_skeleton (by simp [hsplit])
      obtain ⟨p, hp⟩ := hchildren.span_infix n
      have hin : L.span v <:+: L.content entries := List.infix_of_mem_flatten
        (List.mem_map_of_mem (f := Entry.nodes L.span) hv)
      have hplace : L.resettle s entries s <:+: (children p).flatMap (L.resettle s entries) :=
        List.infix_flatMap_of_mem (hp.subset hs) _
      rw [resettle_start] at hplace
      exact ⟨p, List.infix_append_of_infix_left ((List.infix_cons hin).trans hplace)⟩
    intro n
    by_cases hmoved : ∃ x ∈ L.skeleton n, x ∈ L.moved s entries
    · obtain ⟨x, hx, hm⟩ := hmoved
      rw [span_place_of_moved hx hm]
      rcases mem_moved.mp hm with hgap | ⟨v, hv, hspan⟩
      · rcases mem_gap.mp hgap with htext | ⟨home, hhome, hspan⟩
        · exact absurd hx (hL.text_not_skeleton htext)
        · by_cases hkept : .nest home ∈ entries
          · obtain ⟨p, hp⟩ := hcontent home hkept
            exact ⟨p, (hL.span_infix_span hx hspan).trans hp⟩
          · refine ⟨home, (hL.span_infix_span hx hspan).trans ?_⟩
            rw [hdropped home ⟨hhome, hkept⟩]
            exact List.infix_append_right
      · obtain ⟨p, hp⟩ := hcontent v hv
        exact ⟨p, (hL.span_infix_span hx hspan).trans hp⟩
    · obtain ⟨p, hp⟩ := hchildren.span_infix n
      rw [span_place_of_not_moved fun x hx hm => hmoved ⟨x, hx, hm⟩]
      exact ⟨p, List.infix_append_of_infix_left (hp.flatMap _)⟩

end Layout

/-! ## Coming home -/

/-- Handing blocks back leaves the nodes `ns` together: the last block that has any of them has
them all. -/
def Undivided (released : List (Block × List NodeId)) (ns : List NodeId) : Prop :=
  ∃ front e back, released = front ++ e :: back ∧ ns ⊆ e.2 ∧ ∀ e' ∈ back, ∀ n ∈ e'.2, n ∉ ns

namespace Layout

variable {L : Layout} {s : NodeId} {entries : List Entry} {released : List (Block × List NodeId)}

/-- What is handed back are blocks of the old content of which nothing is wanted, every dropped one
among them, and none of them is divided. -/
structure HandsBack (L : Layout) (s : NodeId) (entries : List Entry)
    (released : List (Block × List NodeId)) : Prop where
  span_eq : ∀ e ∈ released, e.2 = L.span e.1.home
  inside : ∀ e ∈ released, e.2 ⊆ L.gap s
  not_wanted : ∀ e ∈ released, ∀ x ∈ e.2, x ∉ L.wanted entries
  dropped : ∀ home, L.Drops s entries home → ∃ e ∈ released, e.1.home = home
  undivided : ∀ e ∈ released, e.2 ≠ [] → Undivided released e.2

/-- The last block that has nodes of a dropped instance is that of the instance itself. -/
theorem HandsBack.exists_last {home : NodeId} (hL : L.Coherent)
    (h : L.HandsBack s entries released) (hhome : L.Drops s entries home)
    (hne : L.span home ≠ []) : ∃ front e back, released = front ++ e :: back ∧
      e.1.home = home ∧ e.2 = L.span home ∧ ∀ e' ∈ back, ∀ n ∈ e'.2, n ∉ L.span home := by
  obtain ⟨e₀, he₀, hhome₀⟩ := h.dropped home hhome
  have hspan₀ : e₀.2 = L.span home := by rw [h.span_eq e₀ he₀, hhome₀]
  have hundivided := h.undivided e₀ he₀ (by rwa [hspan₀])
  rw [hspan₀] at hundivided
  obtain ⟨front, e, back, hsplit, hsub, hback⟩ := hundivided
  have he : e ∈ released := by simp [hsplit]
  obtain ⟨x, rest, hskeleton⟩ :=
    List.exists_cons_of_ne_nil (fun hnil => hne (hL.span_eq_nil_iff.mpr hnil))
  have hx : x ∈ L.skeleton home := by simp [hskeleton]
  have hxe : x ∈ L.span e.1.home := by
    rw [← h.span_eq e he]
    exact hsub (hL.mem_span_of_mem_skeleton hx)
  have hsame : e.1.home = home := by
    by_contra hother
    obtain ⟨q, hq, hheld⟩ := hL.exists_held_of_infix hx hxe (Ne.symm hother)
    obtain rfl := hL.nest_once hheld hhome.1
    rw [← h.span_eq e he] at hq
    exact hL.not_mem_own_gap (h.inside e he hq)
  exact ⟨front, e, back, hsplit, hsame, by rw [h.span_eq e he, hsame], hback⟩

/-- A dropped instance comes home as a whole. -/
theorem HandsBack.homecomings_of_drops {q : NodeId} (hL : L.Coherent)
    (h : L.HandsBack s entries released) (hq : L.Drops s entries q) :
    NodeRange.homecomings released q = L.span q := by
  have hown : ∀ e ∈ released, e.1.home = q → e.2 = L.span q := by
    intro e he hhome
    rw [h.span_eq e he, hhome]
  by_cases hne : L.span q = []
  · rw [hne, List.eq_nil_iff_forall_not_mem]
    intro x hx
    obtain ⟨e, he, hhome, hmem⟩ := NodeRange.exists_of_mem_homecomings hx
    rw [hown e he hhome, hne] at hmem
    exact nomatch hmem
  · obtain ⟨front, e, back, hsplit, hhome, hspan, hback⟩ := h.exists_last hL hq hne
    have hfront : (NodeRange.homecomings front q).filter
        (· ∉ (e :: back).flatMap (·.2)) = [] := by
      rw [List.filter_eq_nil_iff]
      intro x hx
      obtain ⟨e', he', hhome', hmem⟩ := NodeRange.exists_of_mem_homecomings hx
      rw [hown e' (by simp [hsplit, he']) hhome', ← hspan] at hmem
      simp [hmem]
    have hrest : NodeRange.homecomings back q = [] := by
      rw [List.eq_nil_iff_forall_not_mem]
      intro x hx
      obtain ⟨e', he', hhome', hmem⟩ := NodeRange.exists_of_mem_homecomings hx
      apply hback e' he' x hmem
      rwa [← hown e' (by simp [hsplit, he']) hhome']
    have hwhole : e.2.filter (· ∉ back.flatMap (·.2)) = L.span q := by
      rw [hspan]
      refine filter_not_mem_of_disjoint fun x hx hmem => ?_
      obtain ⟨e', he', hx'⟩ := List.mem_flatMap.mp hmem
      exact hback e' he' x hx' hx
    rw [hsplit, NodeRange.homecomings_append, hfront, NodeRange.homecomings, if_pos hhome.symm,
      hwhole, hrest, List.append_nil]
    rfl

/-- No other fragment gets nodes back: what a dropped instance holds goes home with it. -/
theorem HandsBack.homecomings_of_not_drops {q : NodeId} (hL : L.Coherent)
    (h : L.HandsBack s entries released) (hq : ¬ L.Drops s entries q) :
    NodeRange.homecomings released q = [] := by
  have hown : ∀ e ∈ released, e.1.home = q → e.2 = L.span q := by
    intro e he hhome
    rw [h.span_eq e he, hhome]
  rw [List.eq_nil_iff_forall_not_mem]
  intro y hy
  obtain ⟨e₀, he₀, hhome₀, hy₀⟩ := NodeRange.exists_of_mem_homecomings hy
  have hgap₀ := h.inside e₀ he₀
  have hwanted₀ := h.not_wanted e₀ he₀
  rw [hown e₀ he₀ hhome₀] at hy₀ hgap₀ hwanted₀
  obtain ⟨x, rest, hskeleton⟩ := List.exists_cons_of_ne_nil (l := L.skeleton q) (fun hnil => by
    rw [hL.span_eq_nil_iff.mpr hnil] at hy₀
    exact nomatch hy₀)
  have hx : x ∈ L.skeleton q := by simp [hskeleton]
  have hxspan := hL.mem_span_of_mem_skeleton hx
  rcases mem_gap.mp (hgap₀ hxspan) with htext | ⟨home, hheld, hspan⟩
  · exact hL.text_not_skeleton htext hx
  · have hinside := (hL.span_infix_span hx hspan).subset
    have hdrops : L.Drops s entries home :=
      ⟨hheld, fun hkept => hwanted₀ x hxspan (mem_wanted.mpr ⟨home, hkept, hspan⟩)⟩
    obtain ⟨front, e, back, hsplit, hhome, hwhole, hback⟩ :=
      h.exists_last hL hdrops (List.ne_nil_of_mem hspan)
    have hne : q ≠ e.1.home := by
      rintro rfl
      exact hq (hhome ▸ hdrops)
    rw [hsplit, NodeRange.homecomings_append, List.mem_append, NodeRange.homecomings, if_neg hne,
      List.nil_append] at hy
    rcases hy with hy | hy
    · obtain ⟨hmem, hout⟩ := List.mem_filter.mp hy
      have hin : y ∈ (e :: back).flatMap (·.2) := by
        rw [List.flatMap_cons, List.mem_append, hwhole]
        exact .inl (hinside hy₀)
      exact absurd hin (of_decide_eq_true hout)
    · obtain ⟨e', he', hhome', hmem⟩ := NodeRange.exists_of_mem_homecomings hy
      exact hback e' he' y hmem (hinside hy₀)

end Layout

end LiveTemplate
