import LiveTemplate.Proofs.Forest.Fragments
import LiveTemplate.Range.Reconcile
import Mathlib.Data.List.Lattice

/-!
# The passes of a reconciliation

A range stands in a forest when its two ends are children of one parent, the start in front of the
end.  Reconciling it with new content takes four passes over its nodes: some are removed, some go
back to fragments of their own, those that stay are brought into order, and new ones are inserted
between them.  This module says, for a linked forest, that no pass fails and how the lists of
children look behind it.

The last two passes are one walk with a cursor, `NodeRange.arrange`.  Its invariant splits the range
into the part behind the cursor, which is final, and the part in front of it, which holds nothing
but nodes that are still to come.  The cursor never meets a fragment; what is in one is put in front
of the cursor (`arrange_brings`).
-/

namespace LiveTemplate

set_option autoImplicit false

open Forest

namespace NodeRange

variable {r : NodeRange} {f f' : Forest} {p n : NodeId}

/-! ## Ranges that stand -/

/-- The range stands among the children of `p`: `inside` is what it holds, between what comes
before its start and what comes behind its end. -/
def Stands (r : NodeRange) (f : Forest) (p : NodeId) (before inside behind : List NodeId) : Prop :=
  f.children p = before ++ r.start :: (inside ++ r.stop :: behind)

/-- The two ends have one parent exactly when they are children of it. -/
theorem parent_eq_ok_iff (hf : f.Linked) :
    r.parent f = .ok p ↔ r.start ∈ f.children p ∧ r.stop ∈ f.children p := by
  rw [hf.mem_children_iff, hf.mem_children_iff]
  unfold parent
  cases hstart : f.parent? r.start with
  | none => simp
  | some a =>
      cases hstop : f.parent? r.stop with
      | none => simp
      | some b =>
          by_cases hab : a = b
          · simp [hab]
          · simp only [if_neg hab, reduceCtorEq, Option.some.injEq, false_iff, not_and]
            exact fun ha hb => hab (ha.trans hb.symm)

namespace Stands

variable {before inside behind : List NodeId}

theorem parent_eq (hf : f.Linked) (h : r.Stands f p before inside behind) :
    r.parent f = .ok p := by
  rw [parent_eq_ok_iff hf, h]
  simp

theorem nodup (hf : f.Linked) (h : r.Stands f p before inside behind) :
    (before ++ r.start :: (inside ++ r.stop :: behind)).Nodup :=
  h ▸ hf.nodup_children p

theorem mem_children (h : r.Stands f p before inside behind) (hn : n ∈ inside) :
    n ∈ f.children p := by
  rw [h]
  simp [hn]

theorem ne_ends (hf : f.Linked) (h : r.Stands f p before inside behind) (hn : n ∈ inside) :
    n ≠ r.start ∧ n ≠ r.stop ∧ n ∉ before ∧ n ∉ behind := by
  have hnodup := h.nodup hf
  simp only [List.nodup_append, List.nodup_cons, List.mem_cons, List.mem_append] at hnodup
  refine ⟨?_, ?_, ?_, ?_⟩
  · rintro rfl
    exact hnodup.2.1.1 (.inl hn)
  · rintro rfl
    exact hnodup.2.1.2.2.2 _ hn _ (.inl rfl) rfl
  · exact fun hb => hnodup.2.2 n hb n (.inr (.inl hn)) rfl
  · exact fun hb => hnodup.2.1.2.2.2 n hn n (.inr hb) rfl

theorem nodup_inside (hf : f.Linked) (h : r.Stands f p before inside behind) : inside.Nodup := by
  have hnodup := h.nodup hf
  simp only [List.nodup_append, List.nodup_cons] at hnodup
  exact hnodup.2.1.2.1

theorem inside_infix (h : r.Stands f p before inside behind) : inside <:+: f.children p :=
  ⟨before ++ [r.start], r.stop :: behind, by rw [h]; simp⟩

/-- Walking from one end to the other meets what the range holds. -/
theorem items_eq (hf : f.Linked) (h : r.Stands f p before inside behind) :
    r.items f = .ok inside := by
  have hstop : r.stop ∉ inside := fun hs => (h.ne_ends hf hs).2.1 rfl
  unfold items walk
  rw [hf.after_eq h, Walk.upTo_append behind hstop]
  rfl

end Stands

/-- A range whose walk arrives stands somewhere. -/
theorem exists_stands (hf : f.Linked) {inside : List NodeId} (h : r.items f = .ok inside) :
    ∃ p before behind, r.Stands f p before inside behind := by
  unfold items walk Walk.entries at h
  split at h
  · next harrived =>
      obtain ⟨rest, hrest, -⟩ := Walk.eq_append_of_arrived harrived
      rw [Except.ok.injEq] at h
      cases hp : f.parent? r.start with
      | none =>
          rw [after, hp] at hrest
          simp at hrest
      | some p =>
          obtain ⟨before, tail, hsplit⟩ := List.append_of_mem (hf.mem_children_iff.mpr hp)
          rw [hf.after_eq hsplit] at hrest h
          refine ⟨p, before, rest, ?_⟩
          rw [Stands, hsplit, ← h]
          congr 2
  · exact nomatch h

/-! ## Nodes that may be moved into a range -/

/-- A node that may be moved between the ends of a range among the children of `p`. -/
structure Movable (r : NodeRange) (f : Forest) (p n : NodeId) : Prop where
  ne_start : n ≠ r.start
  ne_stop : n ≠ r.stop
  ne_parent : n ≠ p
  lt_nextId : n < f.nextId
  not_fragment : f.isFragment n = false

theorem Movable.of_relinked {ch : NodeId → List NodeId} (h : r.Movable f p n)
    (hf : Relinked f f' ch) : r.Movable f' p n :=
  ⟨h.ne_start, h.ne_stop, h.ne_parent, by rw [hf.nextId_eq]; exact h.lt_nextId,
    (hf.isFragment_eq n).trans h.not_fragment⟩

/-- What stands in the range may be moved in it. -/
theorem Stands.movable {before inside behind : List NodeId} (hf : f.Linked)
    (h : r.Stands f p before inside behind) (hn : n ∈ inside) (hnp : n ≠ p) :
    r.Movable f p n :=
  ⟨(h.ne_ends hf hn).1, (h.ne_ends hf hn).2.1, hnp, hf.lt_nextId (h.mem_children hn),
    hf.not_isFragment (h.mem_children hn)⟩

/-! ## Removing -/

/-- Nodes are removed from a range one after another. -/
theorem relinked_removeAll {gone : List NodeId} (hf : f.Linked) (hp : r.parent f = .ok p)
    (hgone : ∀ n ∈ gone, n ∈ f.children p ∧ n ≠ r.start ∧ n ≠ r.stop) (hnodup : gone.Nodup) :
    ∃ f', r.removeAll gone f = .ok () f' ∧
      Relinked f f' fun q => (f.children q).filter (· ∉ gone) := by
  induction gone generalizing f with
  | nil =>
      refine ⟨f, rfl, (Relinked.refl hf).congr fun q => ?_⟩
      rw [filter_not_mem_nil]
  | cons n gone ih =>
      obtain ⟨hn, hstart, hstop⟩ := hgone n (by simp)
      rw [List.nodup_cons] at hnodup
      obtain ⟨f₁, hrun, hf₁⟩ := relinked_removeChild hf hn
      have hends := (parent_eq_ok_iff hf).mp hp
      have hp₁ : r.parent f₁ = .ok p := by
        rw [parent_eq_ok_iff hf₁.linked, hf₁.children_eq]
        simp [hends, hstart.symm, hstop.symm]
      have hgone₁ : ∀ m ∈ gone, m ∈ f₁.children p ∧ m ≠ r.start ∧ m ≠ r.stop := by
        intro m hm
        obtain ⟨hmem, hne⟩ := hgone m (by simp [hm])
        rw [hf₁.children_eq, List.mem_filter]
        exact ⟨⟨hmem, by simpa using fun e : m = n => hnodup.1 (e ▸ hm)⟩, hne⟩
      obtain ⟨f₂, hrest, hf₂⟩ := ih hf₁.linked hp₁ hgone₁ hnodup.2
      refine ⟨f₂, ?_, (hf₁.trans hf₂).congr fun q => ?_⟩
      · show (r.remove n >>= fun _ => r.removeAll gone) f = _
        have hremove : r.remove n f = .ok () f₁ := by
          unfold remove
          rw [bind_of_ok (look_of_ok hp), hrun]
        rw [bind_of_ok hremove, hrest]
      · rw [hf₁.children_eq, filter_not_mem_cons]

/-! ## Going home -/

/-- Nodes are moved to the end of a fragment one after another. -/
theorem relinked_sendHome {home : NodeId} {moved : List NodeId} (hf : f.Linked)
    (hhome : f.isFragment home = true)
    (hmoved : ∀ n ∈ moved, n < f.nextId ∧ f.isFragment n = false) (hnodup : moved.Nodup) :
    ∃ f', sendHome home moved f = .ok () f' ∧ Relinked f f' fun q =>
      (f.children q).filter (· ∉ moved) ++ if q = home then moved else [] := by
  induction moved generalizing f with
  | nil =>
      refine ⟨f, rfl, (Relinked.refl hf).congr fun q => ?_⟩
      rw [filter_not_mem_nil, ite_self, List.append_nil]
  | cons n moved ih =>
      obtain ⟨hn, hfragment⟩ := hmoved n (by simp)
      rw [List.nodup_cons] at hnodup
      have hne : n ≠ home := by
        rintro rfl
        rw [hfragment] at hhome
        exact nomatch hhome
      obtain ⟨f₁, hrun, hf₁⟩ :=
        relinked_insertLast hf (lt_nextId_of_isFragment hhome) hne hn hfragment
      have hmoved₁ : ∀ m ∈ moved, m < f₁.nextId ∧ f₁.isFragment m = false := by
        intro m hm
        rw [hf₁.nextId_eq, hf₁.isFragment_eq]
        exact hmoved m (by simp [hm])
      obtain ⟨f₂, hrest, hf₂⟩ :=
        ih hf₁.linked ((hf₁.isFragment_eq home).trans hhome) hmoved₁ hnodup.2
      refine ⟨f₂, ?_, (hf₁.trans hf₂).congr fun q => ?_⟩
      · show (Edit.insertBefore home n none >>= fun _ => sendHome home moved) f = _
        rw [bind_of_ok hrun, hrest]
      · rw [hf₁.children_eq, List.filter_append, filter_not_mem_cons, List.append_assoc]
        by_cases hq : q = home
        · simp [hq, hnodup.1]
        · simp [hq]

/-- The nodes that end up in the fragment `q` when blocks go home one after another: those of its
own blocks that no later block takes away. -/
def homecomings : List (Block × List NodeId) → NodeId → List NodeId
  | [], _ => []
  | (b, roots) :: rest, q =>
    (if q = b.home then roots.filter (· ∉ rest.flatMap (·.2)) else []) ++ homecomings rest q

theorem homecomings_append (first second : List (Block × List NodeId)) (q : NodeId) :
    homecomings (first ++ second) q
      = (homecomings first q).filter (· ∉ second.flatMap (·.2)) ++ homecomings second q := by
  induction first with
  | nil => simp [homecomings]
  | cons e first ih =>
      rw [List.cons_append, homecomings, homecomings, ih, List.filter_append, List.append_assoc,
        List.flatMap_append]
      by_cases hq : q = e.1.home
      · rw [if_pos hq, if_pos hq, filter_not_mem_append]
      · rw [if_neg hq, if_neg hq, List.filter_nil]

/-- What comes home leaves with one of the blocks of that home. -/
theorem exists_of_mem_homecomings {released : List (Block × List NodeId)} {q : NodeId}
    (h : n ∈ homecomings released q) : ∃ e ∈ released, e.1.home = q ∧ n ∈ e.2 := by
  induction released with
  | nil => simp [homecomings] at h
  | cons e released ih =>
      rw [homecomings, List.mem_append] at h
      rcases h with h | h
      · by_cases hq : q = e.1.home
        · rw [if_pos hq] at h
          exact ⟨e, by simp, hq.symm, List.mem_of_mem_filter h⟩
        · simp [hq] at h
      · obtain ⟨e', he', hhome⟩ := ih h
        exact ⟨e', by simp [he'], hhome⟩

/-- Blocks go home one after another. -/
theorem relinked_sendAllHome {released : List (Block × List NodeId)} (hf : f.Linked)
    (hhome : ∀ e ∈ released, f.isFragment e.1.home = true)
    (hmoved : ∀ e ∈ released, ∀ n ∈ e.2, n < f.nextId ∧ f.isFragment n = false)
    (hnodup : ∀ e ∈ released, e.2.Nodup) :
    ∃ f', sendAllHome released f = .ok () f' ∧ Relinked f f' fun q =>
      (f.children q).filter (· ∉ released.flatMap (·.2)) ++ homecomings released q := by
  induction released generalizing f with
  | nil =>
      refine ⟨f, rfl, (Relinked.refl hf).congr fun q => ?_⟩
      simp [homecomings]
  | cons e released ih =>
      obtain ⟨f₁, hrun, hf₁⟩ := relinked_sendHome hf (hhome e (by simp)) (hmoved e (by simp))
        (hnodup e (by simp))
      have hmoved₁ : ∀ e' ∈ released, ∀ n ∈ e'.2,
          n < f₁.nextId ∧ f₁.isFragment n = false := by
        intro e' he' n hn
        rw [hf₁.nextId_eq, hf₁.isFragment_eq]
        exact hmoved e' (by simp [he']) n hn
      obtain ⟨f₂, hrest, hf₂⟩ := ih hf₁.linked
        (fun e' he' => (hf₁.isFragment_eq _).trans (hhome e' (by simp [he']))) hmoved₁
        (fun e' he' => hnodup e' (by simp [he']))
      refine ⟨f₂, ?_, (hf₁.trans hf₂).congr fun q => ?_⟩
      · show (sendHome e.1.home e.2 >>= fun _ => sendAllHome released) f = _
        rw [bind_of_ok hrun, hrest]
      · rw [hf₁.children_eq, List.filter_append, List.flatMap_cons, filter_not_mem_append,
          homecomings, List.append_assoc]
        by_cases hq : q = e.1.home
        · rw [if_pos hq, if_pos hq]
        · rw [if_neg hq, if_neg hq, List.filter_nil]

/-! ## Nodes that are brought in -/

/-- A node that may be brought into a range among the children of `p`: it does not end the range,
and the range neither stands in it nor, if it is a fragment, in one of its children. -/
structure Insertable (r : NodeRange) (f : Forest) (p n : NodeId) : Prop where
  ne_start : n ≠ r.start
  ne_stop : n ≠ r.stop
  ne_parent : n ≠ p
  lt_nextId : n < f.nextId
  not_around : f.isFragment n = true → p ∉ f.children n

theorem Movable.insertable (h : r.Movable f p n) : r.Insertable f p n where
  ne_start := h.ne_start
  ne_stop := h.ne_stop
  ne_parent := h.ne_parent
  lt_nextId := h.lt_nextId
  not_around := fun hfragment => by
    rw [h.not_fragment] at hfragment
    exact nomatch hfragment

/-- An edit that moves nodes away from the other lists of children keeps nodes insertable. -/
theorem Insertable.of_relinked {ch : NodeId → List NodeId} (h : r.Insertable f p n)
    (hf : Relinked f f' ch) (hch : ∀ q, q ≠ p → ch q ⊆ f.children q) : r.Insertable f' p n where
  ne_start := h.ne_start
  ne_stop := h.ne_stop
  ne_parent := h.ne_parent
  lt_nextId := hf.nextId_eq ▸ h.lt_nextId
  not_around := by
    intro hfragment hmem
    rw [hf.children_eq] at hmem
    exact h.not_around (hf.isFragment_eq n ▸ hfragment) (hch n h.ne_parent hmem)

/-! ## Bringing into order -/

theorem head?_append_cons {α : Type} (front : List α) (a : α) (back : List α) :
    (front ++ a :: back).head? = (front ++ [a]).head? := by
  cases front <;> rfl

theorem head?_filter_not_mem {front gone : List NodeId} {c : NodeId}
    (h : ∀ m ∈ front.head?, m ∉ gone) :
    (front.filter (· ∉ gone) ++ [c]).head? = (front ++ [c]).head? := by
  cases front with
  | nil => rfl
  | cons m front =>
      rw [List.filter_cons_of_pos (by simpa using h m rfl)]
      rfl

/-- A node of a range stands nowhere else, and the node behind it is the next one of the range or
its end. -/
theorem Stands.met {before done rest behind : List NodeId} (hf : f.Linked)
    (hp : r.Stands f p before (done ++ n :: rest) behind) :
    (n ∉ before ∧ n ∉ done ∧ n ∉ rest ∧ n ∉ behind) ∧
      f.next? n = (rest ++ [r.stop]).head? := by
  have hwhole : f.children p
      = (before ++ r.start :: done) ++ n :: (rest ++ r.stop :: behind) := by
    rw [hp]
    simp
  constructor
  · have hall := hf.nodup_children p
    rw [hwhole] at hall
    simp only [List.nodup_append, List.nodup_cons, List.mem_cons, List.mem_append] at hall
    exact ⟨fun h => hall.2.2 n (.inl h) n (.inl rfl) rfl,
      fun h => hall.2.2 n (.inr (.inr h)) n (.inl rfl) rfl, fun h => hall.2.1.1 (.inl h),
      fun h => hall.2.1.1 (.inr (.inr h))⟩
  · unfold next?
    rw [hf.after_eq hwhole, head?_append_cons]

/-- What is inserted for a node in front of the cursor follows the part `done`. -/
theorem relinked_putBefore {before done rest behind : List NodeId} (hf : f.Linked)
    (hp : r.Stands f p before (done ++ rest) behind) (hn : r.Insertable f p n)
    (hcursor : (rest ++ [r.stop]).head? ≠ some n) :
    ∃ f', r.insertBefore n (rest ++ [r.stop]).head? f = .ok () f' ∧ Relinked f f' fun q =>
      if q = p then
        before.filter (· ∉ f.load n) ++ r.start ::
          ((done.filter (· ∉ f.load n) ++ f.load n ++ rest.filter (· ∉ f.load n)) ++
            r.stop :: behind.filter (· ∉ f.load n))
      else (f.children q).filter (· ∉ f.load n) := by
  obtain ⟨c, tail, hfront⟩ : ∃ c tail, rest ++ r.stop :: behind = c :: tail := by
    cases rest with
    | nil => exact ⟨r.stop, behind, rfl⟩
    | cons m rest => exact ⟨m, rest ++ r.stop :: behind, rfl⟩
  have hhead : (rest ++ [r.stop]).head? = some c := by
    rw [← head?_append_cons rest r.stop behind, hfront]
    rfl
  have hnc : n ≠ c := by
    rintro rfl
    exact hcursor hhead
  have hwhole : f.children p = (before ++ r.start :: done) ++ c :: tail := by
    rw [hp, ← hfront]
    simp
  have hrun : r.insertBefore n (rest ++ [r.stop]).head? f = Edit.insertBefore p n (some c) f := by
    unfold NodeRange.insertBefore
    rw [bind_of_ok (look_of_ok (hp.parent_eq hf)), hhead]
    rfl
  by_cases hfragment : f.isFragment n = true
  · obtain ⟨f', hinsert, hf'⟩ := relinked_insertFragment hf hwhole hfragment hn.ne_parent
      (hn.not_around hfragment)
    have hout : ∀ m ∈ f.children p, m ∉ f.children n := fun m hm hm' =>
      hn.ne_parent (hf.parent_unique hm' hm)
    refine ⟨f', hrun.trans hinsert, hf'.congr fun q => ?_⟩
    rw [load_of_fragment hfragment]
    by_cases hq : q = p
    · rw [hp] at hout
      simp only [List.mem_append, List.mem_cons] at hout
      rw [if_pos hq, if_pos hq, filter_not_mem_of_disjoint fun m hm => hout m (.inl hm),
        filter_not_mem_of_disjoint fun m hm => hout m (.inr (.inr (.inl (.inl hm)))),
        filter_not_mem_of_disjoint fun m hm => hout m (.inr (.inr (.inl (.inr hm)))),
        filter_not_mem_of_disjoint fun m hm => hout m (.inr (.inr (.inr (.inr hm)))), ← hfront]
      simp
    · rw [if_neg hq, if_neg hq]
  · have hsingle := load_of_not_fragment (Bool.eq_false_iff.mpr hfragment)
    obtain ⟨f', hinsert, hf'⟩ := relinked_insertBefore hf hwhole hnc hn.ne_parent
      hn.lt_nextId (Bool.eq_false_iff.mpr hfragment)
    have hkeep : c :: tail.filter (· ≠ n)
        = rest.filter (· ≠ n) ++ r.stop :: behind.filter (· ≠ n) := by
      have h := congrArg (List.filter (· ≠ n)) hfront
      rw [List.filter_append, List.filter_cons_of_pos (by simpa using hn.ne_stop.symm),
        List.filter_cons_of_pos (by simpa using hnc.symm)] at h
      exact h.symm
    refine ⟨f', hrun.trans hinsert, hf'.congr fun q => ?_⟩
    rw [hsingle]
    simp only [filter_not_mem_singleton]
    by_cases hq : q = p
    · rw [if_pos hq, if_pos hq, hkeep, List.filter_append,
        List.filter_cons_of_pos (by simpa using hn.ne_start.symm)]
      simp
    · rw [if_neg hq, if_neg hq]

theorem arrange_of_met {cursor : Option NodeId} {rest : List NodeId} (h : cursor = some n) :
    r.arrange cursor (n :: rest) f = r.arrange (f.next? n) rest f := by
  rw [arrange, if_pos h, bind_of_ok (get_ok f)]

theorem arrange_of_not_met {cursor : Option NodeId} {rest : List NodeId} (h : cursor ≠ some n) :
    r.arrange cursor (n :: rest) f
      = (r.insertBefore n cursor >>= fun _ => r.arrange cursor rest) f := by
  rw [arrange, if_neg h]

/-- One step of a walk with a cursor: the next node stays if the cursor meets it, and otherwise what
is inserted for it is put in front of the cursor.  Either way the part that is final ends in it. -/
theorem arrange_cons {before done rest behind : List NodeId} (hf : f.Linked)
    (hp : r.Stands f p before (done ++ rest) behind) (hn : r.Insertable f p n) :
    ∃ f', (if rest.head? = some n then f' = f
        else r.insertBefore n (rest ++ [r.stop]).head? f = .ok () f') ∧
      (∀ later, r.arrange (rest ++ [r.stop]).head? (n :: later) f
        = r.arrange (rest.filter (· ∉ f.load n) ++ [r.stop]).head? later f') ∧
      Relinked f f' fun q =>
        if q = p then
          before.filter (· ∉ f.load n) ++ r.start ::
            ((done.filter (· ∉ f.load n) ++ f.load n ++ rest.filter (· ∉ f.load n)) ++
              r.stop :: behind.filter (· ∉ f.load n))
        else (f.children q).filter (· ∉ f.load n) := by
  by_cases hhead : rest.head? = some n
  · obtain ⟨rest', rfl⟩ : ∃ rest', rest = n :: rest' := by
      cases rest with
      | nil => exact nomatch hhead
      | cons m rest' => exact ⟨rest', by rw [Option.some.inj hhead]⟩
    obtain ⟨⟨hbefore, hdone, hrest, hbehind⟩, hnext⟩ := hp.met hf
    have hmem : n ∈ f.children p := by
      rw [hp]
      simp
    have hleft : (n :: rest').filter (· ≠ n) = rest' := by
      rw [List.filter_cons_of_neg (by simp), filter_ne_of_not_mem hrest]
    rw [load_of_not_fragment (hf.not_isFragment hmem)]
    simp only [filter_not_mem_singleton]
    refine ⟨f, if_pos hhead ▸ rfl, fun later => ?_, (Relinked.refl hf).congr fun q => ?_⟩
    · have hcursor : (n :: rest' ++ [r.stop]).head? = some n := rfl
      rw [arrange_of_met hcursor, hnext, hleft]
    · by_cases hq : q = p
      · rw [if_pos hq, hq, hp, hleft, filter_ne_of_not_mem hbefore, filter_ne_of_not_mem hdone,
          filter_ne_of_not_mem hbehind]
        simp
      · have hnq : n ∉ f.children q := fun h => hq (hf.parent_unique h hmem)
        rw [if_neg hq, filter_ne_of_not_mem hnq]
  · have hcursor : (rest ++ [r.stop]).head? ≠ some n := by
      cases rest with
      | nil => exact fun h => hn.ne_stop (Option.some.inj h).symm
      | cons m rest => exact hhead
    have hkept : ∀ m ∈ rest.head?, m ∉ f.load n := by
      intro m hm hload
      have hmem : m ∈ f.children p := by
        rw [hp]
        simp [List.mem_of_mem_head? hm]
      by_cases hfragment : f.isFragment n = true
      · rw [load_of_fragment hfragment] at hload
        exact hn.ne_parent (hf.parent_unique hload hmem)
      · rw [load_of_not_fragment (Bool.eq_false_iff.mpr hfragment), List.mem_singleton] at hload
        exact hhead (hload ▸ hm)
    obtain ⟨f', hinsert, hf'⟩ := relinked_putBefore hf hp hn hcursor
    refine ⟨f', by rwa [if_neg hhead], fun later => ?_, hf'⟩
    rw [arrange_of_not_met hcursor, bind_of_ok hinsert, head?_filter_not_mem hkept]

/-- A walk with a cursor brings the nodes `targets` in order behind the part `done` that is final.
Of what stands in front of the cursor, `rest`, there is then left what has not been brought in, and
the walk goes on from there with the nodes that come later. -/
theorem arrange_brings (later : List NodeId) {targets before done rest behind held : List NodeId}
    (hf : f.Linked) (hp : r.Stands f p before (done ++ rest) behind) (hnodup : targets.Nodup)
    (hins : ∀ n ∈ targets, r.Insertable f p n) (hheld : f.brought f.children targets = held) :
    ∃ f', r.arrange (rest ++ [r.stop]).head? (targets ++ later) f
        = r.arrange (rest.filter (· ∉ held) ++ [r.stop]).head? later f' ∧
      Relinked f f' fun q =>
        if q = p then
          before.filter (· ∉ held) ++ r.start ::
            ((done.filter (· ∉ held) ++ held ++ rest.filter (· ∉ held)) ++
              r.stop :: behind.filter (· ∉ held))
        else (f.children q).filter (· ∉ held) := by
  induction targets generalizing f before done rest behind held with
  | nil =>
      obtain rfl : [] = held := hheld
      refine ⟨f, by rw [filter_not_mem_nil]; rfl, (Relinked.refl hf).congr fun q => ?_⟩
      by_cases hq : q = p
      · rw [if_pos hq, hq, hp]
        simp
      · rw [if_neg hq, filter_not_mem_nil]
  | cons n targets ih =>
      have hn := hins n List.mem_cons_self
      rw [List.nodup_cons] at hnodup
      obtain ⟨f₁, -, hstep, hf₁⟩ := arrange_cons hf hp hn
      have hother : ∀ q, q ≠ p → f₁.children q = (f.children q).filter (· ∉ f.load n) :=
        fun q hq => (hf₁.children_eq q).trans (if_neg hq)
      have hch : ∀ m ∈ targets, f₁.children m = (f.children m).filter (· ∉ f.load n) :=
        fun m hm => hother m (hins m (List.mem_cons_of_mem n hm)).ne_parent
      have hkind : ∀ m ∈ targets, f₁.isFragment m = f.isFragment m :=
        fun m _ => hf₁.isFragment_eq m
      have hp₁ : r.Stands f₁ p (before.filter (· ∉ f.load n))
          ((done.filter (· ∉ f.load n) ++ f.load n) ++ rest.filter (· ∉ f.load n))
          (behind.filter (· ∉ f.load n)) :=
        (hf₁.children_eq p).trans (if_pos rfl)
      obtain ⟨f', hrun, hf'⟩ := ih hf₁.linked hp₁ hnodup.2 (fun m hm =>
        (hins m (List.mem_cons_of_mem n hm)).of_relinked hf₁ fun q hq => by
          rw [if_neg hq]
          exact fun _ => List.mem_of_mem_filter) rfl
      have hload : ∀ m ∈ f.load n, m ∈ f₁.brought f₁.children targets ↔ m ∈ targets :=
        fun m hm => mem_brought_iff_of_mem_load hf hkind hch hm
      have hsplit : held = (f.load n).filter (· ∉ targets) ++ f₁.brought f₁.children targets := by
        rw [← hheld, brought_cons hf hnodup.1 hkind hch]
      generalize f₁.brought f₁.children targets = others at *
      have hleft : ∀ l : List NodeId,
          (l.filter (· ∉ f.load n)).filter (· ∉ others) = l.filter (· ∉ held) := by
        intro l
        rw [hsplit, List.filter_filter]
        refine List.filter_congr fun m _ => ?_
        by_cases hm : m ∈ f.load n
        · by_cases htarget : m ∈ targets <;> simp [hm, htarget, hload m hm]
        · simp [hm]
      have hmoved : (f.load n).filter (· ∉ others) ++ others = held := by
        rw [hsplit, List.filter_congr fun m hm => decide_eq_decide.mpr (not_congr (hload m hm))]
      refine ⟨f', ?_, (hf₁.trans hf').congr fun q => ?_⟩
      · rw [List.cons_append, hstep, hrun, hleft]
      · by_cases hq : q = p
        · rw [if_pos hq, if_pos hq, hleft, hleft, hleft, List.filter_append, hleft, ← hmoved]
          simp
        · rw [if_neg hq, if_neg hq, hother q hq, hleft]

/-- A walk with a cursor puts the nodes `targets` in order behind the part `done` that is final, if
there are no fragments among them. -/
theorem arrange_append (later : List NodeId) {targets before done rest behind : List NodeId}
    (hf : f.Linked) (hp : r.Stands f p before (done ++ rest) behind) (hnodup : targets.Nodup)
    (hfree : ∀ n ∈ targets, n ∉ done ∧ r.Movable f p n) :
    ∃ f', r.arrange (rest ++ [r.stop]).head? (targets ++ later) f
        = r.arrange (rest.filter (· ∉ targets) ++ [r.stop]).head? later f' ∧
      Relinked f f' fun q =>
        if q = p then
          before.filter (· ∉ targets) ++ r.start ::
            ((done ++ targets ++ rest.filter (· ∉ targets)) ++
              r.stop :: behind.filter (· ∉ targets))
        else (f.children q).filter (· ∉ targets) := by
  have hdone : done.filter (· ∉ targets) = done :=
    filter_not_mem_of_disjoint fun n hn hmem => (hfree n hmem).1 hn
  have hwalk := arrange_brings later hf hp hnodup (fun n hn => (hfree n hn).2.insertable)
    (brought_of_not_fragment (fun n hn => (hfree n hn).2.not_fragment) f.children)
  rwa [hdone] at hwalk

/-- Nothing but the nodes `targets` is left if there was nothing else in front of the cursor. -/
theorem relinked_arrange {targets : List NodeId} {before done rest behind : List NodeId}
    (hf : f.Linked) (hp : r.Stands f p before (done ++ rest) behind) (hrest : rest ⊆ targets)
    (hnodup : targets.Nodup) (hfree : ∀ n ∈ targets, n ∉ done ∧ r.Movable f p n) :
    ∃ f', r.arrange (rest ++ [r.stop]).head? targets f = .ok () f' ∧ Relinked f f' fun q =>
      if q = p then
        before.filter (· ∉ targets) ++ r.start :: ((done ++ targets) ++
          r.stop :: behind.filter (· ∉ targets))
      else (f.children q).filter (· ∉ targets) := by
  have hnone : rest.filter (· ∉ targets) = [] := by
    rw [List.filter_eq_nil_iff]
    intro n hn
    simpa using hrest hn
  obtain ⟨f', hrun, hf'⟩ := arrange_append [] hf hp hnodup hfree
  rw [List.append_nil] at hrun
  refine ⟨f', hrun.trans rfl, hf'.congr fun q => ?_⟩
  rw [hnone, List.append_nil]

/-- A walk stops at the node that the range stands in, which cannot be put into itself.  By then it
has been taken out of its place. -/
theorem arrange_parent {later : List NodeId} {before done rest behind : List NodeId}
    (hf : f.Linked) (hp : r.Stands f p before (done ++ rest) behind) :
    ∃ f', r.arrange (rest ++ [r.stop]).head? (p :: later) f = .error .insertsIntoItself f' ∧
      Relinked f f' fun q => (f.children q).filter (· ≠ p) := by
  obtain ⟨c, hhead, hc⟩ : ∃ c, (rest ++ [r.stop]).head? = some c ∧ c ∈ f.children p := by
    cases rest with
    | nil => exact ⟨r.stop, rfl, by rw [hp]; simp⟩
    | cons m rest => exact ⟨m, rfl, by rw [hp]; simp⟩
  have hcp : c ≠ p := hf.ne_of_mem_children hc
  have hout := relinked_detach hf.counted p
  have hc' : c ∈ (f.counted.detach p).children p := by
    rw [hout.children_eq]
    exact List.mem_filter.mpr ⟨hc, by simpa using hcp⟩
  obtain ⟨front, back, hsplit⟩ := List.append_of_mem hc'
  have hfront : c ∉ front := by
    have hnodup := hout.linked.nodup_children p
    rw [hsplit, List.nodup_append] at hnodup
    exact fun hmem => hnodup.2.2 c hmem c (by simp) rfl
  have hposition : Edit.position p c (f.counted.detach p) = .ok front.length
      (f.counted.detach p) := by
    apply look_of_ok
    rw [hsplit, findIdx?_eq_length hfront]
  have hrefused : Edit.insert p front.length p (f.counted.detach p)
      = .error .insertsIntoItself (f.counted.detach p) := by
    unfold Edit.insert
    rw [bind_of_ok (get_ok _), if_pos rfl]
    rfl
  have hinsert : r.insertBefore p (some c) f
      = .error .insertsIntoItself (f.counted.detach p) := by
    unfold NodeRange.insertBefore Edit.insertBefore
    rw [bind_of_ok (look_of_ok (hp.parent_eq hf)), bind_of_ok (countMutation_ok f),
      bind_of_ok (detach_ok p f.counted)]
    show (Edit.position p c >>= fun place => Edit.insert p place p) _ = _
    rw [bind_of_ok hposition, hrefused]
  refine ⟨f.counted.detach p, ?_, hout.linked, hout.children_eq, hout.kind?_eq, hout.nextId_eq,
    hout.partsMade_eq⟩
  rw [hhead, arrange_of_not_met (by simpa using hcp), bind_of_error hinsert]

end NodeRange

end LiveTemplate
