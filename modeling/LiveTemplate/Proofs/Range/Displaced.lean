import LiveTemplate.Proofs.Forest.Counts
import LiveTemplate.Proofs.Range.Passes
import Mathlib.Data.List.Perm.Subperm

/-!
# The nodes that a walk moves

A walk with a cursor moves the nodes that it does not meet: `misplaced` lists them, step by step.
What it comes to is said without a cursor.  A node is moved if it did not stand in front of the
cursor at all, or if it stood behind a node that it is to stand in front of (`misplaced_eq_filter`).

A reconciliation walks twice.  The first walk moves the nodes that stay in the range and that others
among them are to come behind, though they were in front (`misplaced_kept`); they are the nodes
`displaced`.  The first of the nodes that stay is never moved, and none is moved if they stand in
order already.  The second walk moves the nodes that are new in the range, and no others
(`misplaced_all`).
-/

namespace LiveTemplate

set_option autoImplicit false

open Forest
open scoped List

/-! ## Pairs of entries -/

section Pairs

variable {α : Type} {a b c : α} {l : List α}

theorem pair_sublist_cons : [a, b] <+ c :: l ↔ [a, b] <+ l ∨ a = c ∧ b ∈ l := by
  rw [List.sublist_cons_iff]
  simp

/-- Of two entries of a list one stands in front of the other. -/
theorem pair_sublist_or (ha : a ∈ l) (hb : b ∈ l) (hne : a ≠ b) : [a, b] <+ l ∨ [b, a] <+ l := by
  induction l with
  | nil => exact nomatch ha
  | cons c l ih =>
      rw [pair_sublist_cons, pair_sublist_cons]
      rcases List.mem_cons.mp ha with rfl | ha'
      · exact .inl (.inr ⟨rfl, (List.mem_cons.mp hb).resolve_left hne.symm⟩)
      · rcases List.mem_cons.mp hb with rfl | hb'
        · exact .inr (.inr ⟨rfl, ha'⟩)
        · exact (ih ha' hb').imp .inl .inl

/-- In a list without repetitions no two entries stand in front of each other. -/
theorem not_pair_sublist (hl : l.Nodup) (h : [a, b] <+ l) : ¬ [b, a] <+ l := by
  induction l with
  | nil => exact nomatch h
  | cons c l ih =>
      rw [List.nodup_cons] at hl
      intro h'
      rw [pair_sublist_cons] at h h'
      rcases h with h | ⟨rfl, hb⟩
      · rcases h' with h' | ⟨rfl, -⟩
        · exact ih hl.2 h h'
        · exact hl.1 (h.mem (by simp))
      · rcases h' with h' | ⟨rfl, ha⟩
        · exact hl.1 (h'.mem (by simp))
        · exact hl.1 ha

theorem pair_sublist_filter {P : α → Bool} :
    [a, b] <+ l.filter P ↔ [a, b] <+ l ∧ P a = true ∧ P b = true := by
  constructor
  · intro h
    exact ⟨h.trans List.filter_sublist, List.of_mem_filter (h.mem (by simp)),
      List.of_mem_filter (h.mem (by simp))⟩
  · rintro ⟨h, ha, hb⟩
    simpa [ha, hb] using h.filter P

end Pairs

namespace NodeRange

/-! ## The nodes that are moved in one walk -/

/-- The nodes that a walk puts in front of its cursor, where `rest` is what stands there. -/
def misplaced (rest : List NodeId) : List NodeId → List NodeId
  | [] => []
  | n :: later =>
    (if rest.head? = some n then [] else [n]) ++ misplaced (rest.filter (· ≠ n)) later

/-- The node did not stand in front of the cursor, or behind a node that it is to stand in front
of. -/
def IsMisplaced (rest targets : List NodeId) (n : NodeId) : Prop :=
  n ∉ rest ∨ ∃ m ∈ rest, [m, n] <+ rest ∧ [n, m] <+ targets

instance (rest targets : List NodeId) (n : NodeId) : Decidable (IsMisplaced rest targets n) :=
  inferInstanceAs (Decidable (_ ∨ _))

variable {rest targets later old new : List NodeId} {n m : NodeId}

/-- The next node is met if nothing that is to come behind it stands in front of it. -/
theorem isMisplaced_cons_self (hrest : rest.Nodup) (hsub : rest ⊆ n :: later) :
    IsMisplaced rest (n :: later) n ↔ rest.head? ≠ some n := by
  cases rest with
  | nil => simp [IsMisplaced]
  | cons c rest =>
      rw [List.nodup_cons] at hrest
      rw [List.head?_cons, ne_eq, Option.some.injEq]
      constructor
      · rintro (hout | ⟨m, -, hpair, -⟩) rfl
        · exact hout List.mem_cons_self
        · rw [pair_sublist_cons] at hpair
          rcases hpair with hpair | ⟨-, hmem⟩
          · exact hrest.1 (hpair.mem (by simp))
          · exact hrest.1 hmem
      · intro hne
        by_cases hn : n ∈ c :: rest
        · have hc : c ∈ later := (List.mem_cons.mp (hsub List.mem_cons_self)).resolve_left hne
          have hn' : n ∈ rest := (List.mem_cons.mp hn).resolve_left (Ne.symm hne)
          exact .inr ⟨c, List.mem_cons_self, pair_sublist_cons.mpr (.inr ⟨rfl, hn'⟩),
            pair_sublist_cons.mpr (.inr ⟨rfl, hc⟩)⟩
        · exact .inl hn

/-- What becomes of the nodes that come later does not depend on the one that is next. -/
theorem isMisplaced_cons (htargets : (n :: later).Nodup) (hm : m ∈ later) :
    IsMisplaced (rest.filter (· ≠ n)) later m ↔ IsMisplaced rest (n :: later) m := by
  rw [List.nodup_cons] at htargets
  have hne : ∀ k ∈ later, k ≠ n := fun k hk e => htargets.1 (e ▸ hk)
  have hkeep : ∀ k ∈ later, (k ∈ rest.filter (· ≠ n) ↔ k ∈ rest) := fun k hk => by
    simp [hne k hk]
  unfold IsMisplaced
  rw [hkeep m hm]
  refine or_congr_right (exists_congr fun k => ?_)
  have hlater : [m, k] <+ n :: later ↔ [m, k] <+ later := by
    rw [pair_sublist_cons]
    simp [hne m hm]
  rw [hlater]
  constructor
  · rintro ⟨hk, hpair, hpair'⟩
    exact ⟨List.mem_of_mem_filter hk, (pair_sublist_filter.mp hpair).1, hpair'⟩
  · rintro ⟨hk, hpair, hpair'⟩
    have hk' : k ∈ later := hpair'.mem (by simp)
    exact ⟨(hkeep k hk').mpr hk, pair_sublist_filter.mpr
      ⟨hpair, by simpa using hne k hk', by simpa using hne m hm⟩, hpair'⟩

/-- The nodes that a walk moves are those that are misplaced from the start. -/
theorem misplaced_eq_filter (hrest : rest.Nodup) (htargets : targets.Nodup)
    (hsub : rest ⊆ targets) :
    misplaced rest targets = targets.filter (IsMisplaced rest targets) := by
  induction targets generalizing rest with
  | nil => rfl
  | cons n later ih =>
      have hsub' : rest.filter (· ≠ n) ⊆ later := by
        intro m hm
        rw [List.mem_filter] at hm
        exact (List.mem_cons.mp (hsub hm.1)).resolve_left (by simpa using hm.2)
      have hlater : later.filter (IsMisplaced (rest.filter (· ≠ n)) later)
          = later.filter (IsMisplaced rest (n :: later)) :=
        List.filter_congr fun m hm => decide_eq_decide.mpr (isMisplaced_cons htargets hm)
      rw [misplaced, ih (hrest.filter _) (List.nodup_cons.mp htargets).2 hsub', hlater]
      have hnext := isMisplaced_cons_self hrest hsub
      by_cases hhead : rest.head? = some n
      · rw [if_pos hhead, List.filter_cons_of_neg (by simpa [hnext] using hhead), List.nil_append]
      · rw [if_neg hhead, List.filter_cons_of_pos (by simpa [hnext] using hhead)]
        rfl

/-! ## The nodes that change places -/

/-- The nodes of the old content that, in the new content, stand in front of a node that they stood
behind. -/
def displaced (old new : List NodeId) : List NodeId :=
  new.filter fun n => ∃ m ∈ old, [m, n] <+ old ∧ [n, m] <+ new

theorem mem_displaced : n ∈ displaced old new ↔ ∃ m, [m, n] <+ old ∧ [n, m] <+ new := by
  rw [displaced, List.mem_filter, decide_eq_true_iff]
  constructor
  · rintro ⟨-, m, -, h⟩
    exact ⟨m, h⟩
  · rintro ⟨m, hold, hnew⟩
    exact ⟨hnew.mem (by simp), m, hold.mem (by simp), hold, hnew⟩

/-- Nodes change places among those that stay. -/
theorem mem_displaced_iff_kept : n ∈ displaced old new ↔
    ∃ m, [m, n] <+ old.filter (· ∈ new) ∧ [n, m] <+ new.filter (· ∈ old) := by
  rw [mem_displaced]
  refine exists_congr fun m => ?_
  rw [pair_sublist_filter, pair_sublist_filter, decide_eq_true_iff, decide_eq_true_iff,
    decide_eq_true_iff, decide_eq_true_iff]
  constructor
  · rintro ⟨hold, hnew⟩
    exact ⟨⟨hold, hnew.mem (by simp), hnew.mem (by simp)⟩, hnew, hold.mem (by simp),
      hold.mem (by simp)⟩
  · rintro ⟨⟨hold, -⟩, hnew, -⟩
    exact ⟨hold, hnew⟩

theorem displaced_subset (old new : List NodeId) :
    displaced old new ⊆ old.filter (· ∈ new) := by
  intro n hn
  obtain ⟨m, hpair, -⟩ := mem_displaced_iff_kept.mp hn
  exact hpair.mem (by simp)

/-- The first of the nodes that stay does not change places. -/
theorem length_displaced_le (hnew : new.Nodup) :
    (displaced old new).length ≤ (old.filter (· ∈ new)).length - 1 := by
  have hsub : displaced old new ⊆ (old.filter (· ∈ new)).tail := by
    intro n hn
    obtain ⟨m, hpair, -⟩ := mem_displaced_iff_kept.mp hn
    generalize old.filter (· ∈ new) = kept at hpair
    cases kept with
    | nil => exact nomatch hpair
    | cons k kept =>
        rw [pair_sublist_cons] at hpair
        exact hpair.elim (fun h => h.mem (by simp)) And.right
  have hnodup : (displaced old new).Nodup := hnew.filter _
  have hle := (List.Nodup.subperm hnodup hsub).length_le
  rwa [List.length_tail] at hle

/-- No node changes places exactly when those that stay are in order already. -/
theorem displaced_eq_nil_iff (hold : old.Nodup) (hnew : new.Nodup) :
    displaced old new = [] ↔ old.filter (· ∈ new) = new.filter (· ∈ old) := by
  have hkept := hold.filter (· ∈ new)
  have hkept' := hnew.filter (· ∈ old)
  constructor
  · intro hnone
    have hperm : old.filter (· ∈ new) ~ new.filter (· ∈ old) := by
      rw [List.perm_ext_iff_of_nodup hkept hkept']
      simp [and_comm]
    have hordered : (old.filter (· ∈ new)).Pairwise fun a b => [a, b] <+ old.filter (· ∈ new) :=
      List.pairwise_iff_forall_sublist.mpr id
    have hordered' : (new.filter (· ∈ old)).Pairwise
        fun a b => [a, b] <+ old.filter (· ∈ new) := by
      refine List.pairwise_iff_forall_sublist.mpr fun {a b} hab => ?_
      have ha : a ∈ old.filter (· ∈ new) := hperm.mem_iff.mpr (hab.mem (by simp))
      have hb : b ∈ old.filter (· ∈ new) := hperm.mem_iff.mpr (hab.mem (by simp))
      have hne : a ≠ b := by
        rintro rfl
        exact not_pair_sublist hkept' hab hab
      refine (pair_sublist_or ha hb hne).resolve_right fun hba => ?_
      have hmem : a ∈ displaced old new := mem_displaced.mpr
        ⟨b, (pair_sublist_filter.mp hba).1, (pair_sublist_filter.mp hab).1⟩
      rw [hnone] at hmem
      exact nomatch hmem
    exact hperm.eq_of_pairwise (fun a b _ _ hab hba => absurd hba (not_pair_sublist hkept hab))
      hordered hordered'
  · intro hsame
    rw [List.eq_nil_iff_forall_not_mem]
    intro n hn
    obtain ⟨m, hpair, hpair'⟩ := mem_displaced_iff_kept.mp hn
    exact not_pair_sublist hkept' (hsame ▸ hpair) hpair'

/-- The walk through the nodes that stay moves those that change places. -/
theorem misplaced_kept (hold : old.Nodup) (hnew : new.Nodup) :
    misplaced (old.filter (· ∈ new)) (new.filter (· ∈ old)) = displaced old new := by
  have hsame : ∀ n, n ∈ old.filter (· ∈ new) ↔ n ∈ new.filter (· ∈ old) := by
    simp [and_comm]
  rw [misplaced_eq_filter (hold.filter _) (hnew.filter _) fun n hn => (hsame n).mp hn,
    List.filter_filter, displaced]
  refine List.filter_congr fun n hn => ?_
  rw [Bool.eq_iff_iff, Bool.and_eq_true, decide_eq_true_iff, decide_eq_true_iff,
    decide_eq_true_iff]
  have hmem : (∃ m ∈ old, [m, n] <+ old ∧ [n, m] <+ new) ↔ n ∈ displaced old new := by
    rw [displaced, List.mem_filter, decide_eq_true_iff]
    exact (and_iff_right hn).symm
  rw [hmem, mem_displaced_iff_kept]
  constructor
  · rintro ⟨hout | ⟨m, -, hpair⟩, hkeep⟩
    · exact absurd (List.mem_filter.mpr ⟨hkeep, by simpa using hn⟩) hout
    · exact ⟨m, hpair⟩
  · rintro ⟨m, hpair, hpair'⟩
    exact ⟨.inr ⟨m, hpair.mem (by simp), hpair, hpair'⟩,
      List.mem_of_mem_filter (hpair.mem (show n ∈ [m, n] by simp))⟩

/-- The walk through the whole content moves the nodes that are new in it. -/
theorem misplaced_all (hnew : new.Nodup) :
    misplaced (new.filter (· ∈ old)) new = new.filter (· ∉ old) := by
  rw [misplaced_eq_filter (hnew.filter _) hnew fun n hn => List.mem_of_mem_filter hn]
  refine List.filter_congr fun n hn => decide_eq_decide.mpr ?_
  constructor
  · rintro (hout | ⟨m, -, hpair, hpair'⟩)
    · exact fun h => hout (List.mem_filter.mpr ⟨hn, by simpa using h⟩)
    · exact absurd (pair_sublist_filter.mp hpair).1 (not_pair_sublist hnew hpair')
  · exact fun h => .inl fun hmem => h (by simpa using List.of_mem_filter hmem)

/-! ## The mutations of a walk -/

variable {r : NodeRange} {f f' : Forest} {p : NodeId}

theorem counts_insertBefore (r : NodeRange) (n : NodeId) (reference : Option NodeId) :
    Edit.Counts (r.insertBefore n reference) 1 0 :=
  (Edit.counts_look _).bind_zero fun p => Edit.counts_insertBefore p n _

/-- A walk with a cursor counts the nodes that it moves. -/
theorem arrange_counts {before done behind : List NodeId} (hf : f.Linked)
    (hp : r.Stands f p before (done ++ rest) behind) (hnodup : targets.Nodup)
    (hfree : ∀ n ∈ targets, n ∉ done ∧ r.Movable f p n)
    (hrun : r.arrange (rest ++ [r.stop]).head? targets f = .ok () f') :
    f'.tally = f.tally.plus (misplaced rest targets).length 0 := by
  induction targets generalizing f before done rest behind with
  | nil =>
      cases hrun
      rfl
  | cons n later ih =>
      obtain ⟨hdone, hn⟩ := hfree n (by simp)
      rw [List.nodup_cons] at hnodup
      obtain ⟨f₁, hmove, hstep, hf₁⟩ := arrange_cons hf hp hn.insertable
      rw [load_of_not_fragment hn.not_fragment] at hstep hf₁
      simp only [filter_not_mem_singleton, filter_ne_of_not_mem hdone] at hstep hf₁
      have hp₁ : r.Stands f₁ p (before.filter (· ≠ n)) ((done ++ [n]) ++ rest.filter (· ≠ n))
          (behind.filter (· ≠ n)) := by
        rw [Stands, hf₁.children_eq, if_pos rfl]
      have hcount : f₁.tally = f.tally.plus (if rest.head? = some n then [] else [n]).length 0 := by
        by_cases hhead : rest.head? = some n
        · rw [if_pos hhead] at hmove ⊢
          rw [hmove]
          rfl
        · rw [if_neg hhead] at hmove ⊢
          exact counts_insertBefore r n _ f () f₁ hmove
      rw [hstep] at hrun
      rw [ih hf₁.linked hp₁ hnodup.2 (fun m hm => ?_) hrun, hcount, Tally.plus_plus, misplaced,
        List.length_append]
      obtain ⟨hmdone, hmovable⟩ := hfree m (by simp [hm])
      have hne : m ≠ n := fun e => hnodup.1 (e ▸ hm)
      exact ⟨by simp [hmdone, hne], hmovable.of_relinked hf₁⟩

end NodeRange

end LiveTemplate
