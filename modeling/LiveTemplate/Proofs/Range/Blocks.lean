import LiveTemplate.Proofs.Range.Passes

/-!
# The root nodes of a block

The root nodes of an instance are found by walking from its first root node to its last.
`Block.roots_cases` takes a walk that comes to its end apart; the other facts about root nodes
follow from it.  They are different nodes (`nodup_roots`) and have one parent (`siblings_of_roots`).

What a block names of its root nodes is the two ends of a list, `Block.endsOf`.  Wherever such a
list is a run of children, the walk meets the whole list and nothing else (`Block.roots_eq_of_run`),
so an instance whose root nodes are moved one behind the other keeps them
(`Block.roots_eq_of_moved`).
-/

namespace LiveTemplate

set_option autoImplicit false

open Forest NodeRange

/-! ## Walks that come to their end -/

/-- A block without root nodes has none to meet; any other meets the siblings from its first root
node to its last. -/
theorem Block.roots_cases {b : Block} {f : Forest} {ns : List NodeId} (h : b.roots f = .ok ns) :
    (b.ends = none ∧ ns = []) ∨ ∃ first last met rest, b.ends = some (first, last) ∧
      ns = met ++ [last] ∧ first :: f.after first = met ++ last :: rest := by
  unfold Block.roots Block.walk Walk.entries at h
  cases hends : b.ends with
  | none =>
      rw [hends] at h
      cases h
      exact .inl ⟨rfl, rfl⟩
  | some ends =>
      obtain ⟨first, last⟩ := ends
      rw [hends] at h
      by_cases harrived : (Walk.upTo last (first :: f.after first)).arrived = true
      · obtain ⟨rest, hsplit, -⟩ := Walk.eq_append_of_arrived harrived
        simp only [harrived, if_true, Except.ok.injEq] at h
        exact .inr ⟨first, last, _, rest, rfl, h.symm, hsplit⟩
      · simp [harrived] at h

/-- A node and the siblings behind it are consecutive children, unless it stands alone. -/
theorem siblings_from {f : Forest} (hf : f.Linked) (first : NodeId) :
    f.after first = [] ∨ ∃ q before, f.children q = before ++ first :: f.after first := by
  cases hp : f.parent? first with
  | none =>
      left
      rw [after, hp]
  | some q =>
      obtain ⟨before, behind, hsplit⟩ := List.append_of_mem (hf.mem_children_iff.mpr hp)
      exact .inr ⟨q, before, by rw [hf.after_eq hsplit, hsplit]⟩

/-- The roots of a block are different nodes. -/
theorem NodeRange.nodup_roots {b : Block} {f : Forest} {roots : List NodeId} (hf : f.Linked)
    (h : b.roots f = .ok roots) : roots.Nodup := by
  rcases Block.roots_cases h with ⟨-, rfl⟩ | ⟨first, last, met, rest, -, rfl, hsplit⟩
  · exact List.nodup_nil
  · have hnodup : (first :: f.after first).Nodup := by
      rcases siblings_from hf first with halone | ⟨q, before, hq⟩
      · rw [halone]
        exact List.nodup_singleton first
      · exact (List.nodup_append.mp (hq ▸ hf.nodup_children q)).2.1
    rw [hsplit, List.append_cons] at hnodup
    exact (List.nodup_append.mp hnodup).1

/-- Two roots of one block are siblings. -/
theorem siblings_of_roots {f : Forest} {b : Block} {roots : List NodeId} {x y : NodeId}
    (hf : f.Linked) (h : b.roots f = .ok roots) (hx : x ∈ roots) (hy : y ∈ roots) (hne : x ≠ y) :
    ∃ q, x ∈ f.children q ∧ y ∈ f.children q := by
  rcases Block.roots_cases h with ⟨-, rfl⟩ | ⟨first, last, met, rest, -, rfl, hsplit⟩
  · exact nomatch hx
  · have hsub : met ++ [last] ⊆ first :: f.after first := by
      rw [hsplit, List.append_cons met last rest]
      exact List.subset_append_left _ _
    rcases siblings_from hf first with halone | ⟨q, before, hq⟩
    · rw [halone] at hsub
      have hx' := List.mem_singleton.mp (hsub hx)
      have hy' := List.mem_singleton.mp (hsub hy)
      exact absurd (hx'.trans hy'.symm) hne
    · have hmem : ∀ n ∈ met ++ [last], n ∈ f.children q := by
        intro n hn
        rw [hq]
        exact List.mem_append_right _ (hsub hn)
      exact ⟨q, hmem x hx, hmem y hy⟩

/-- Only a block of one node can have a fragment for a root node. -/
theorem not_isFragment_of_roots {f : Forest} {b : Block} {roots : List NodeId}
    (hf : f.Linked) (h : b.roots f = .ok roots) :
    (∃ n, roots = [n]) ∨ ∀ n ∈ roots, f.isFragment n = false := by
  match roots, h with
  | [], _ => exact .inr nofun
  | [n], _ => exact .inl ⟨n, rfl⟩
  | n :: m :: rest, h =>
      have hne : n ≠ m := by
        have hnodup := NodeRange.nodup_roots hf h
        rw [List.nodup_cons, List.mem_cons, not_or] at hnodup
        exact hnodup.1.1
      refine .inr fun x hx => ?_
      by_cases hxn : x = n
      · obtain ⟨q, hq, -⟩ := siblings_of_roots hf h hx (by simp) (hxn ▸ hne)
        exact hf.not_isFragment hq
      · obtain ⟨q, hq, -⟩ := siblings_of_roots hf h hx List.mem_cons_self hxn
        exact hf.not_isFragment hq

/-! ## The ends of a run -/

/-- The first and the last of some nodes. -/
def Block.endsOf : List NodeId → Option (NodeId × NodeId)
  | [] => none
  | first :: rest => some (first, rest.getLastD first)

theorem Block.ends_ofFragment (i : InstanceId) (home : NodeId) (f : Forest) :
    (Block.ofFragment i home f).ends = Block.endsOf (f.children home) := by
  unfold Block.ofFragment
  cases f.children home <;> rfl

theorem Block.endsOf_append (front : List NodeId) (last : NodeId) :
    ∃ first, Block.endsOf (front ++ [last]) = some (first, last) ∧
      (front ++ [last]).head? = some first := by
  cases front with
  | nil => exact ⟨last, rfl, rfl⟩
  | cons first front =>
      refine ⟨first, ?_, rfl⟩
      rw [List.cons_append, endsOf, List.getLastD_concat]

theorem Block.mem_of_endsOf {ns : List NodeId} {first last : NodeId}
    (h : Block.endsOf ns = some (first, last)) : first ∈ ns ∧ last ∈ ns := by
  cases ns with
  | nil => exact nomatch h
  | cons n ns =>
      cases h
      exact ⟨by simp, List.getLastD_mem_cons⟩

theorem Block.endsOf_congr {ns ms : List NodeId} (hfirst : ns.head? = ms.head?)
    (hlast : ns.getLast? = ms.getLast?) : Block.endsOf ns = Block.endsOf ms := by
  cases ns with
  | nil =>
      cases ms with
      | nil => rfl
      | cons m ms => exact nomatch hfirst
  | cons n ns =>
      cases ms with
      | nil => exact nomatch hfirst
      | cons m ms =>
          rw [List.head?_cons, List.head?_cons, Option.some.injEq] at hfirst
          rw [List.getLast?_cons, List.getLast?_cons, Option.some.injEq] at hlast
          rw [endsOf, endsOf, List.getLastD_eq_getLast?, List.getLastD_eq_getLast?, hlast, hfirst]

/-- Walking from the first to the last of consecutive children meets them all. -/
theorem Block.roots_eq_of_run {b : Block} {f : Forest} {p : NodeId} {ns : List NodeId}
    (hf : f.Linked) (h : ns <:+: f.children p) (hends : b.ends = Block.endsOf ns) :
    b.roots f = .ok ns := by
  obtain ⟨before, behind, hp⟩ := h
  unfold Block.roots Block.walk
  rw [hends]
  rcases List.eq_nil_or_concat ns with rfl | ⟨front, last, rfl⟩
  · rfl
  · rw [List.concat_eq_append] at hp ⊢
    obtain ⟨first, hfirst, hhead⟩ := Block.endsOf_append front last
    have hsiblings : first :: f.after first = front ++ last :: behind := by
      obtain ⟨rest, hrest⟩ : ∃ rest, front ++ [last] = first :: rest := by
        cases hwhole : front ++ [last] with
        | nil => simp at hwhole
        | cons m rest =>
            rw [hwhole, List.head?_cons, Option.some.injEq] at hhead
            exact ⟨rest, by rw [hhead]⟩
      have hsplit : f.children p = before ++ first :: (rest ++ behind) := by
        rw [← hp, hrest]
        simp
      rw [hf.after_eq hsplit, ← List.cons_append, ← hrest]
      simp
    have hlast : last ∉ front := by
      have hnodup := hf.nodup_children p
      rw [← hp] at hnodup
      have hrun := (List.nodup_append.mp (List.nodup_append.mp hnodup).1).2.1
      exact fun hmem => (List.nodup_append.mp hrun).2.2 last hmem last (by simp) rfl
    rw [hfirst]
    show Walk.entries (if (Walk.upTo last (first :: f.after first)).arrived = true then
      { Walk.upTo last (first :: f.after first) with
        met := (Walk.upTo last (first :: f.after first)).met ++ [last] }
      else Walk.upTo last (first :: f.after first)) _ = _
    rw [hsiblings, Walk.upTo_append behind hlast]
    rfl

/-- A block names the ends of its root nodes. -/
theorem Block.ends_of_roots {b : Block} {f : Forest} {ns : List NodeId}
    (h : b.roots f = .ok ns) : b.ends = Block.endsOf ns := by
  rcases Block.roots_cases h with ⟨hends, rfl⟩ | ⟨first, last, met, rest, hends, rfl, hsplit⟩
  · exact hends
  · obtain ⟨first', hfirst, hhead⟩ := Block.endsOf_append met last
    rw [← head?_append_cons met last rest, ← hsplit] at hhead
    rw [hends, hfirst, Option.some.inj hhead]

/-- Root nodes that have been moved one behind the other are still the root nodes of their block. -/
theorem Block.roots_eq_of_moved {b : Block} {f f' : Forest} {p : NodeId} {ns : List NodeId}
    (h : b.roots f = .ok ns) (hf' : f'.Linked) (hns : ns <:+: f'.children p) :
    b.roots f' = .ok ns :=
  Block.roots_eq_of_run hf' hns (Block.ends_of_roots h)

/-- A block of one node has the same root node wherever that stands. -/
theorem Block.roots_eq_of_single {b : Block} {f : Forest} {n : NodeId} (h : b.roots f = .ok [n])
    (f' : Forest) : b.roots f' = .ok [n] := by
  unfold Block.roots Block.walk
  rw [Block.ends_of_roots h]
  show Walk.entries (if (Walk.upTo n (n :: f'.after n)).arrived = true then
    { Walk.upTo n (n :: f'.after n) with met := (Walk.upTo n (n :: f'.after n)).met ++ [n] }
    else Walk.upTo n (n :: f'.after n)) _ = _
  rw [Walk.upTo, if_pos rfl]
  rfl

end LiveTemplate
