import LiveTemplate.Proofs.Instance.Realized
import Mathlib.Data.List.Infix

/-!
# How instances nest

When instances are placed in ranges of other instances, at any depth, the lists of children can be
computed from three things: the nodes that a realization made below each node, its `skeleton`; what
every range holds on behalf of its last contents; and, for every fragment that is held somewhere,
the block of its roots.  A `Layout` names these three.  In a coherent one the nodes below `n` are
its skeleton with the content of every range start behind that start:

    span n  =  m₁ :: gap m₁ ++ m₂ :: gap m₂ ++ ⋯        for  skeleton n = [m₁, m₂, …]

The equation is recursive, for a gap is made of texts and of the spans of the fragments held there.

Main statements: every node of a span comes from the skeleton or from one range start in the span
(`Coherent.origin`), that start is unique (`Coherent.from_unique`), and two spans with a node in
common contain one another (`Coherent.overlap`).
-/

namespace LiveTemplate

set_option autoImplicit false

/-- What a range holds for one of its contents: a text of its own, or the roots of an instance,
which is named by its fragment. -/
inductive Entry
  | text (n : NodeId)
  | nest (home : NodeId)
  deriving DecidableEq

/-- The nodes of an entry. -/
def Entry.nodes (span : NodeId → List NodeId) : Entry → List NodeId
  | .text n => [n]
  | .nest home => span home

/-- How the nodes of a forest are made up of realized trees and of what their ranges hold. -/
structure Layout where
  /-- The nodes that were made below a node, range ends included. -/
  skeleton : NodeId → List NodeId
  /-- What the range that starts at a node holds. -/
  held : NodeId → List Entry
  /-- The nodes below a node, or those that are below it when it is at home. -/
  span : NodeId → List NodeId

namespace Layout

variable {L : Layout} {m n q x a b : NodeId}

/-- The nodes behind a range start, up to its end. -/
def gap (L : Layout) (m : NodeId) : List NodeId := (L.held m).flatMap (Entry.nodes L.span)

/-- The node `x` is in the range that starts at `q`, and in no range between. -/
def From (L : Layout) (q x : NodeId) : Prop :=
  .text x ∈ L.held q ∨ ∃ home, .nest home ∈ L.held q ∧ x ∈ L.skeleton home

/-- The instance at home in a fragment is held by a range. -/
def Held (L : Layout) (home : NodeId) : Prop := ∃ m, .nest home ∈ L.held m

/-- A layout in which spans are made of skeletons and gaps, and nothing is in two places. -/
structure Coherent (L : Layout) : Prop where
  span_eq : ∀ n, L.span n = (L.skeleton n).flatMap fun m => m :: L.gap m
  skeleton_nodup : ∀ n, (L.skeleton n).Nodup
  skeleton_unique : ∀ {x n n' : NodeId}, x ∈ L.skeleton n → x ∈ L.skeleton n' → n = n'
  text_once : ∀ {x m m' : NodeId}, .text x ∈ L.held m → .text x ∈ L.held m' → m = m'
  nest_once : ∀ {home m m' : NodeId}, .nest home ∈ L.held m → .nest home ∈ L.held m' → m = m'
  text_not_skeleton : ∀ {x m n : NodeId}, .text x ∈ L.held m → x ∉ L.skeleton n
  text_bare : ∀ {x m : NodeId}, .text x ∈ L.held m → L.skeleton x = []
  start : ∀ {m : NodeId}, L.held m ≠ [] →
    ∃ n front next back, L.skeleton n = front ++ m :: next :: back

/-! ## What is in a gap -/

theorem mem_gap : x ∈ L.gap m ↔
    .text x ∈ L.held m ∨ ∃ home, .nest home ∈ L.held m ∧ x ∈ L.span home := by
  unfold gap
  rw [List.mem_flatMap]
  constructor
  · rintro ⟨e, he, hx⟩
    cases e with
    | text n =>
        obtain rfl : x = n := List.mem_singleton.mp hx
        exact .inl he
    | nest home => exact .inr ⟨home, he, hx⟩
  · rintro (he | ⟨home, he, hx⟩)
    · exact ⟨_, he, List.mem_singleton.mpr rfl⟩
    · exact ⟨_, he, hx⟩

theorem span_infix_gap {home : NodeId} (h : .nest home ∈ L.held m) : L.span home <:+: L.gap m :=
  List.infix_of_mem_flatten (List.mem_map_of_mem h)

theorem gap_of_held_eq_nil (h : L.held m = []) : L.gap m = [] := by
  unfold gap
  rw [h]
  rfl

namespace Coherent

variable (hL : L.Coherent)

include hL

theorem mem_skeleton_of_held_ne_nil (h : L.held m ≠ []) : ∃ n, m ∈ L.skeleton n := by
  obtain ⟨n, front, next, back, hsplit⟩ := hL.start h
  exact ⟨n, by rw [hsplit]; simp⟩

/-- A text holds nothing. -/
theorem gap_of_text (h : .text x ∈ L.held m) : L.gap x = [] := by
  apply gap_of_held_eq_nil
  by_contra hne
  obtain ⟨n, hn⟩ := hL.mem_skeleton_of_held_ne_nil hne
  exact hL.text_not_skeleton h hn

/-- The last node of a skeleton holds nothing. -/
theorem gap_of_last {front : List NodeId} (h : L.skeleton n = front ++ [m]) : L.gap m = [] := by
  apply gap_of_held_eq_nil
  by_contra hne
  obtain ⟨n', front', next, back, hsplit⟩ := hL.start hne
  obtain rfl : n = n' := hL.skeleton_unique (x := m) (by simp [h]) (by simp [hsplit])
  have hnodup := hL.skeleton_nodup n
  have hlast : (front' ++ m :: next :: back).getLast? = some m := by
    rw [← hsplit, h]
    simp
  rw [List.getLast?_append, List.getLast?_cons_cons] at hlast
  have hmem : m ∈ next :: back := by
    refine List.mem_of_getLast? ?_
    cases hback : (next :: back).getLast? with
    | none => simp at hback
    | some l =>
        rw [hback] at hlast
        exact hlast
  rw [hsplit, List.nodup_append, List.nodup_cons] at hnodup
  exact hnodup.2.1.1 hmem

theorem block_infix_span (h : m ∈ L.skeleton n) : m :: L.gap m <:+: L.span n := by
  rw [hL.span_eq]
  exact List.infix_flatMap_of_mem h fun m => m :: L.gap m

theorem mem_span_of_mem_skeleton (h : m ∈ L.skeleton n) : m ∈ L.span n :=
  (hL.block_infix_span h).subset (by simp)

theorem mem_span_iff : x ∈ L.span n ↔ ∃ m ∈ L.skeleton n, x = m ∨ x ∈ L.gap m := by
  rw [hL.span_eq, List.mem_flatMap]
  simp only [List.mem_cons]

theorem span_eq_nil_iff : L.span n = [] ↔ L.skeleton n = [] := by
  rw [hL.span_eq]
  cases L.skeleton n <;> simp

/-- A span holds every node together with what is behind it. -/
theorem gap_infix_span (hq : q ∈ L.span n) : q :: L.gap q <:+: L.span n := by
  induction hk : (L.span n).length using Nat.strong_induction_on generalizing n with
  | h k ih =>
      obtain ⟨m, hm, hqm⟩ := hL.mem_span_iff.mp hq
      have hblock := hL.block_infix_span hm
      rcases hqm with rfl | hgap
      · exact hblock
      · have htail : L.gap m <:+: L.span n := (List.infix_cons (List.infix_refl _)).trans hblock
        refine List.IsInfix.trans ?_ htail
        rcases mem_gap.mp hgap with htext | ⟨home, hnest, hhome⟩
        · rw [hL.gap_of_text htext, List.singleton_infix_iff]
          exact hgap
        · have hspan := span_infix_gap hnest
          have hshort : (L.span home).length < k := by
            have h := hblock.length_le
            rw [hk, List.length_cons] at h
            exact Nat.lt_of_le_of_lt hspan.length_le h
          exact (ih _ hshort hhome rfl).trans hspan

theorem gap_infix_gap (hq : q ∈ L.gap m) : q :: L.gap q <:+: L.gap m := by
  rcases mem_gap.mp hq with htext | ⟨home, hnest, hhome⟩
  · rw [hL.gap_of_text htext, List.singleton_infix_iff]
    exact hq
  · exact (hL.gap_infix_span hhome).trans (span_infix_gap hnest)

theorem gap_subset_span (hq : q ∈ L.span n) : L.gap q ⊆ L.span n := fun _ hx =>
  (hL.gap_infix_span hq).subset (List.mem_cons_of_mem q hx)

/-! ## Where nodes come from -/

theorem mem_gap_of_from (h : L.From q x) : x ∈ L.gap q := by
  rw [mem_gap]
  rcases h with htext | ⟨home, hnest, hx⟩
  · exact .inl htext
  · exact .inr ⟨home, hnest, hL.mem_span_of_mem_skeleton hx⟩

/-- A node comes from one range at most. -/
theorem from_unique {q' : NodeId} (h : L.From q x) (h' : L.From q' x) : q = q' := by
  rcases h with htext | ⟨home, hnest, hx⟩
  · rcases h' with htext' | ⟨home', -, hx'⟩
    · exact hL.text_once htext htext'
    · exact absurd hx' (hL.text_not_skeleton htext)
  · rcases h' with htext' | ⟨home', hnest', hx'⟩
    · exact absurd hx (hL.text_not_skeleton htext')
    · rw [hL.skeleton_unique hx hx'] at hnest
      exact hL.nest_once hnest hnest'

/-- A node of a skeleton comes from where that skeleton is held. -/
theorem nest_of_from (h : L.From q x) (hx : x ∈ L.skeleton n) : .nest n ∈ L.held q := by
  rcases h with htext | ⟨home, hnest, hhome⟩
  · exact absurd hx (hL.text_not_skeleton htext)
  · rwa [hL.skeleton_unique hx hhome]

/-- A node of a span is one of the skeleton or comes from a range start in the span. -/
theorem origin (hx : x ∈ L.span n) : x ∈ L.skeleton n ∨ ∃ q ∈ L.span n, L.From q x := by
  induction hk : (L.span n).length using Nat.strong_induction_on generalizing n with
  | h k ih =>
      obtain ⟨m, hm, rfl | hgap⟩ := hL.mem_span_iff.mp hx
      · exact .inl hm
      · right
        have hmem := hL.mem_span_of_mem_skeleton hm
        rcases mem_gap.mp hgap with htext | ⟨home, hnest, hhome⟩
        · exact ⟨m, hmem, .inl htext⟩
        · have hspan := span_infix_gap hnest
          have hshort : (L.span home).length < k := by
            have h := (hL.block_infix_span hm).length_le
            rw [hk, List.length_cons] at h
            exact Nat.lt_of_le_of_lt hspan.length_le h
          rcases ih _ hshort hhome rfl with hskeleton | ⟨q, hq, hfrom⟩
          · exact ⟨m, hmem, .inr ⟨home, hnest, hskeleton⟩⟩
          · exact ⟨q, hL.gap_subset_span hmem (hspan.subset hq), hfrom⟩

/-- A node behind a range start comes from that start or from one behind it. -/
theorem origin_gap (hx : x ∈ L.gap m) : L.From m x ∨ ∃ q ∈ L.gap m, L.From q x := by
  rcases mem_gap.mp hx with htext | ⟨home, hnest, hhome⟩
  · exact .inl (.inl htext)
  · rcases hL.origin hhome with hskeleton | ⟨q, hq, hfrom⟩
    · exact .inl (.inr ⟨home, hnest, hskeleton⟩)
    · exact .inr ⟨q, (span_infix_gap hnest).subset hq, hfrom⟩

/-- A span that holds one node of a skeleton holds all that is below it. -/
theorem span_infix_span (hx : x ∈ L.skeleton a) (hn : x ∈ L.span n) : L.span a <:+: L.span n := by
  rcases hL.origin hn with hskeleton | ⟨q, hq, hfrom⟩
  · rw [hL.skeleton_unique hx hskeleton]
  · have hblock := hL.gap_infix_span hq
    exact (span_infix_gap (hL.nest_of_from hfrom hx)).trans
      ((List.infix_cons (List.infix_refl _)).trans hblock)

theorem span_subset_gap (hx : x ∈ L.skeleton a) (hm : x ∈ L.gap m) : L.span a ⊆ L.gap m := by
  rcases hL.origin_gap hm with hfrom | ⟨q, hq, hfrom⟩
  · exact (span_infix_gap (hL.nest_of_from hfrom hx)).subset
  · intro y hy
    have hy' := (span_infix_gap (hL.nest_of_from hfrom hx)).subset hy
    exact (hL.gap_infix_gap hq).subset (List.mem_cons_of_mem q hy')

/-- Two spans with a node in common contain one another: on the way back from the node to the range
it comes from, the part of a span behind it grows. -/
theorem overlap (ha : x ∈ L.span a) (hb : x ∈ L.span b) :
    L.span a <:+: L.span b ∨ L.span b <:+: L.span a := by
  induction hk : (L.span a).length - (L.gap x).length using Nat.strong_induction_on
    generalizing x with
  | h k ih =>
      rcases hL.origin ha with hskeleton | ⟨q, hq, hfrom⟩
      · exact .inl (hL.span_infix_span hskeleton hb)
      · rcases hL.origin hb with hskeleton' | ⟨q', hq', hfrom'⟩
        · exact .inr (hL.span_infix_span hskeleton' ha)
        · obtain rfl := hL.from_unique hfrom hfrom'
          have hgrow := (hL.gap_infix_gap (hL.mem_gap_of_from hfrom)).length_le
          have hbound := (hL.gap_infix_span hq).length_le
          rw [List.length_cons] at hgrow hbound
          exact ih _ (by omega) hq hq' rfl

/-- No instance is held by a range of its own. -/
theorem not_held_within {home : NodeId} (hq : q ∈ L.span home) : .nest home ∉ L.held q := by
  intro hnest
  have hgrow := (hL.gap_infix_span hq).length_le
  have hspan := (span_infix_gap hnest).length_le
  rw [List.length_cons] at hgrow
  exact absurd hspan (Nat.not_le.mpr hgrow)

/-- An instance strictly inside another one is held by one of its ranges. -/
theorem exists_held_of_infix (hx : x ∈ L.skeleton a) (hb : x ∈ L.span b) (hne : a ≠ b) :
    ∃ q ∈ L.span b, .nest a ∈ L.held q := by
  rcases hL.origin hb with hskeleton | ⟨q, hq, hfrom⟩
  · exact absurd (hL.skeleton_unique hx hskeleton) hne
  · exact ⟨q, hq, hL.nest_of_from hfrom hx⟩

end Coherent

end Layout

end LiveTemplate
