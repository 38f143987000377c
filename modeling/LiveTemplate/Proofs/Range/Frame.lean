import LiveTemplate.Proofs.Range.Exactness
import Mathlib.Data.List.Dedup

/-!
# What a call leaves alone

A call that gives a range new contents edits three places: the range, the places that its new nodes
come from, and the fragments of the instances that it drops.  `Framed` says so for the whole forest.
Lists of children lose the nodes that are given to the call and gain, at their end, the root nodes
of the instances that go home to them; the children around the range are no exception.  No other
node changes its parent, and no node that was there before changes what it is.  What is removed
stands alone, with everything that was below it and was not asked for.

Instances go home one after another, so a root node that two of them have in common ends up with
the one that goes last (`homecomings`).  Without such nodes every instance comes home as a whole,
which is what `gains` says.

Main statement: `framed_of_replaceContents`.
-/

namespace LiveTemplate

set_option autoImplicit false

open Forest

namespace NodeRange

/-! ## Instances without common root nodes -/

/-- The nodes that the children of `q` gain when blocks go home: the root nodes of its blocks, one
block after the other. -/
def gains (released : List (Block × List NodeId)) (q : NodeId) : List NodeId :=
  (released.dedup.filter (·.1.home = q)).flatMap (·.2)

theorem mem_gains {released : List (Block × List NodeId)} {q n : NodeId} :
    n ∈ gains released q ↔ ∃ e ∈ released, e.1.home = q ∧ n ∈ e.2 := by
  simp [gains, List.mem_flatMap, and_assoc]

/-- A node with a parent is no fragment, so nothing comes home to it. -/
theorem gains_eq_nil {released : List (Block × List NodeId)} {f : Forest} {q n : NodeId}
    (hf : f.Linked) (hhome : ∀ e ∈ released, f.isFragment e.1.home = true)
    (hq : f.parent? n = some q) : gains released n = [] := by
  rw [List.eq_nil_iff_forall_not_mem]
  intro k hk
  obtain ⟨e, he, rfl, -⟩ := mem_gains.mp hk
  rw [hf.alone_of_isFragment (hhome e he)] at hq
  exact nomatch hq

/-- Blocks without common root nodes come home as a whole. -/
theorem homecomings_eq_gains {released : List (Block × List NodeId)}
    (hapart : ∀ e ∈ released, ∀ e' ∈ released, e ≠ e' → e.2.Disjoint e'.2) (q : NodeId) :
    homecomings released q = gains released q := by
  induction released with
  | nil => rfl
  | cons e released ih =>
      have hrest := ih fun e₁ he₁ e₂ he₂ =>
        hapart e₁ (List.mem_cons_of_mem e he₁) e₂ (List.mem_cons_of_mem e he₂)
      rw [homecomings, hrest]
      by_cases hmem : e ∈ released
      · have hnone : e.2.filter (· ∉ released.flatMap (·.2)) = [] := by
          rw [List.filter_eq_nil_iff]
          intro n hn
          simpa using ⟨e.1, e.2, hmem, hn⟩
        rw [hnone, ite_self, List.nil_append, gains, gains, List.dedup_cons_of_mem hmem]
      · have hall : e.2.filter (· ∉ released.flatMap (·.2)) = e.2 := by
          refine filter_not_mem_of_disjoint fun n hn hlater => ?_
          obtain ⟨e', he', hn'⟩ := List.mem_flatMap.mp hlater
          have hne : e ≠ e' := fun h => hmem (h ▸ he')
          exact hapart e List.mem_cons_self e' (List.mem_cons_of_mem e he') hne hn hn'
        rw [hall, gains, gains, List.dedup_cons_of_notMem hmem]
        by_cases hq : q = e.1.home
        · rw [if_pos hq, List.filter_cons_of_pos (by simpa using hq.symm), List.flatMap_cons]
        · rw [if_neg hq, List.filter_cons_of_neg (by simpa using Ne.symm hq), List.nil_append]

/-- Instances that a call drops have no root node in common. -/
def DroppedApart (f : Forest) (placed : List Block) (contents : List Content) : Prop :=
  ∀ b ∈ placed, ∀ b' ∈ placed, b ≠ b' →
    b.owner ∉ (contents.filterMap Content.block?).map (·.owner) →
    b'.owner ∉ (contents.filterMap Content.block?).map (·.owner) →
    ∀ ns ns', b.roots f = .ok ns → b'.roots f = .ok ns' → ns.Disjoint ns'

/-- What is handed back to one instance is not handed back to another. -/
theorem DroppedApart.handedBack {f : Forest} {placed : List Block} {contents : List Content}
    (h : DroppedApart f placed contents) (current wanted : List NodeId) :
    ∀ e ∈ NodeRange.handedBack f placed contents current wanted,
      ∀ e' ∈ NodeRange.handedBack f placed contents current wanted, e ≠ e' → e.2.Disjoint e'.2 := by
  rintro ⟨b, ns⟩ he ⟨b', ns'⟩ he' hne
  rw [NodeRange.handedBack, mem_released] at he he'
  obtain ⟨hb, hroots, hdropped, -⟩ := he
  obtain ⟨hb', hroots', hdropped', -⟩ := he'
  refine h b hb b' hb' ?_ hdropped hdropped' ns ns' hroots hroots'
  rintro rfl
  exact hne (congrArg _ (Except.ok.inj (hroots.symm.trans hroots')))

/-! ## The frame -/

section Framed

variable {r : NodeRange} {f f' : Forest} {p : NodeId} {before inside behind held : List NodeId}
  {items : List Item} {released : List (Block × List NodeId)}

/-- What a call has made of the forest `f`: `given` are the nodes that were given to the range, as
themselves or as root nodes of instances, `released` are the instances that went home, and `held` is
what the range holds now. -/
structure Framed (r : NodeRange) (f f' : Forest) (p : NodeId)
    (before inside behind given : List NodeId) (released : List (Block × List NodeId))
    (held : List NodeId) : Prop where
  /-- Around the range the children are those that were there and were not given away. -/
  children_parent : f'.children p =
    before.filter (· ∉ given) ++ r.start :: (held ++ r.stop :: behind.filter (· ∉ given)) ++
      gains released p
  children_eq : ∀ q, q ≠ p → f'.children q = (f.children q).filter (· ∉ given) ++ gains released q
  parent?_eq : ∀ n, n < f.nextId → n ∉ inside → n ∉ given → f'.parent? n = f.parent? n
  /-- Kinds of nodes comprise the attributes of elements and the characters of texts. -/
  kind?_eq : ∀ n, n < f.nextId → f'.kind? n = f.kind? n
  /-- The range takes its nodes from nowhere else. -/
  origin : ∀ n ∈ held, n ∈ given ∨ n ∈ inside ∨ f.nextId ≤ n
  parent?_removed : ∀ n ∈ inside, n ∉ held → n ∉ released.flatMap (·.2) → f'.parent? n = none
  /-- Below a node that was removed only what was given away is missing.  (No range of a tree stands
  in a node that it holds; links that agree do not exclude it.) -/
  children_removed : ∀ n ∈ inside, n ∉ held → n ∉ released.flatMap (·.2) →
    ∀ m, m = n ∨ f.Above n m → m ≠ p → f'.children m = (f.children m).filter (· ∉ given)

/-- Outside of the range the nodes that it holds now are those that were given to it. -/
theorem Reconciled.filter_held (h : Reconciled r f f' p before inside behind items released held)
    {l : List NodeId} (hl : ∀ n ∈ l, n < f.nextId ∧ n ∉ inside) :
    l.filter (· ∉ held) = l.filter (· ∉ items.filterMap Item.node?) := by
  refine List.filter_congr fun n hn => ?_
  obtain ⟨hold, hout⟩ := hl n hn
  have hiff : n ∈ held ↔ n ∈ items.filterMap Item.node? := by
    refine ⟨fun hheld => ?_, mem_of_serves h.serves⟩
    rcases h.origin n hheld with hgiven | hspare | hnew
    · exact hgiven
    · exact absurd hspare.1 hout
    · exact absurd hold (Nat.not_lt.mpr hnew)
  simp only [hiff]

/-- The lists of children behind a reconciliation, by the nodes that were given to the range. -/
theorem Reconciled.children_framed
    (h : Reconciled r f f' p before inside behind items released held) (hf : f.Linked)
    (hr : r.Stands f p before inside behind)
    (hapart : ∀ e ∈ released, ∀ e' ∈ released, e ≠ e' → e.2.Disjoint e'.2) :
    (f'.children p = before.filter (· ∉ items.filterMap Item.node?) ++
      r.start :: (held ++ r.stop :: behind.filter (· ∉ items.filterMap Item.node?)) ++
        gains released p) ∧
      ∀ q, q ≠ p → f'.children q
        = (f.children q).filter (· ∉ items.filterMap Item.node?) ++ gains released q := by
  have hbefore : ∀ n ∈ before, n < f.nextId ∧ n ∉ inside := fun n hn =>
    ⟨hf.lt_nextId (p := p) (by rw [hr]; simp [hn]), fun hin => (hr.ne_ends hf hin).2.2.1 hn⟩
  have hbehind : ∀ n ∈ behind, n < f.nextId ∧ n ∉ inside := fun n hn =>
    ⟨hf.lt_nextId (p := p) (by rw [hr]; simp [hn]), fun hin => (hr.ne_ends hf hin).2.2.2 hn⟩
  have hgains := homecomings_eq_gains hapart
  constructor
  · rw [h.children_eq, if_pos rfl, h.filter_held hbefore, h.filter_held hbehind, hgains]
  · intro q hq
    have hothers : ∀ n ∈ f.children q, n < f.nextId ∧ n ∉ inside := fun n hn =>
      ⟨hf.lt_nextId hn, fun hin => hq (hf.parent_unique hn (hr.mem_children hin))⟩
    rw [h.children_eq, if_neg hq, h.filter_held hothers, hgains]

/-- A reconciliation changes the forest in the places that `Framed` names. -/
theorem Reconciled.framed (h : Reconciled r f f' p before inside behind items released held)
    (hf : f.Linked) (hr : r.Stands f p before inside behind)
    (hhome : ∀ e ∈ released, f.isFragment e.1.home = true)
    (hinside : ∀ e ∈ released, ∀ n ∈ e.2, n ∈ inside)
    (hapart : ∀ e ∈ released, ∀ e' ∈ released, e ≠ e' → e.2.Disjoint e'.2) :
    Framed r f f' p before inside behind (items.filterMap Item.node?) released held := by
  have horigin : ∀ n ∈ held, n ∈ items.filterMap Item.node? ∨ n ∈ inside ∨ f.nextId ≤ n :=
    fun n hn => (h.origin n hn).imp_right (Or.imp_left And.left)
  have hcoming : ∀ q, ∀ n ∈ gains released q, n ∈ inside ∧ n ∈ released.flatMap (·.2) := by
    intro q n hn
    obtain ⟨e, he, -, hmem⟩ := mem_gains.mp hn
    exact ⟨hinside e he n hmem, List.mem_flatMap.mpr ⟨e, he, hmem⟩⟩
  obtain ⟨hparent, hother⟩ := h.children_framed hf hr hapart
  generalize items.filterMap Item.node? = given at horigin hparent hother ⊢
  have hkept : ∀ n, n < f.nextId → n ∉ inside → n ∉ given → f'.parent? n = f.parent? n := by
    intro n hn hout hkeep
    have hheld : n ∉ held := fun hmem => by
      rcases horigin n hmem with hgiven | hin | hnew
      · exact hkeep hgiven
      · exact hout hin
      · exact absurd hn (Nat.not_lt.mpr hnew)
    refine Option.ext fun q => ?_
    rw [← h.linked.mem_children_iff, ← hf.mem_children_iff]
    have hgain : n ∉ gains released q := fun hmem => hout (hcoming q n hmem).1
    by_cases hq : q = p
    · subst hq
      rw [hparent, hr]
      simp [hkeep, hheld, hout, hgain]
    · rw [hother q hq]
      simp [hkeep, hgain]
  have hremoved : ∀ n ∈ inside, n ∉ held → n ∉ released.flatMap (·.2) → f'.parent? n = none := by
    intro n hin hheld hstay
    rw [Option.eq_none_iff_forall_ne_some]
    intro q hq
    have hgain : n ∉ gains released q := fun hmem => hstay (hcoming q n hmem).2
    rw [← h.linked.mem_children_iff] at hq
    by_cases hqp : q = p
    · subst hqp
      obtain ⟨hstart, hstop, hb, hb'⟩ := hr.ne_ends hf hin
      rw [hparent] at hq
      simp [hstart, hstop, hb, hb', hheld, hgain] at hq
    · rw [hother q hqp, List.mem_append] at hq
      rcases hq with hq | hq
      · exact hqp (hf.parent_unique (List.mem_of_mem_filter hq) (hr.mem_children hin))
      · exact hgain hq
  have hbelow : ∀ n ∈ inside, ∀ m, m = n ∨ f.Above n m → m ≠ p →
      f'.children m = (f.children m).filter (· ∉ given) := by
    intro n hin m hm hmp
    obtain ⟨q, hq⟩ : ∃ q, f.parent? m = some q := by
      rcases hm with rfl | habove
      · exact ⟨p, hf.mem_children_iff.mp (hr.mem_children hin)⟩
      · exact (above_iff.mp habove).imp fun _ h => h.1
    rw [hother m hmp, gains_eq_nil hf hhome hq, List.append_nil]
  exact ⟨hparent, hother, hkept, h.kind?_eq, horigin, hremoved, fun n hin _ _ => hbelow n hin⟩

end Framed

end NodeRange

open NodeRange

/-- A call that returns has changed nothing but the range, the places that its new nodes came from,
and the fragments of the instances that it dropped and handed back. -/
theorem Live.framed_of_replaceContents {s s' : Session} {r : NodeRange} {contents : List Content}
    (hlinked : s.forest.Linked)
    (hplaced : ∀ b ∈ s.placedIn r, s.forest.isFragment b.home = true)
    (hmay : r.MayHold s.forest contents)
    (hapart : DroppedApart s.forest (s.placedIn r) contents)
    (hrun : Live.replaceContents r contents s = .ok () s') :
    ∃ items p before inside behind held, Content.allItems s.forest contents = .ok items ∧
      r.Stands s.forest p before inside behind ∧
      Framed r s.forest s'.forest p before inside behind (items.filterMap Item.node?)
        (handedBack s.forest (s.placedIn r) contents inside (items.filterMap Item.node?)) held := by
  obtain ⟨items, p, before, inside, behind, held, hwanted, hr, -, hdone⟩ :=
    reconciled_of_replaceContents hlinked hplaced hmay hrun
  refine ⟨items, p, before, inside, behind, held, (wanted_eq_ok_iff.mp hwanted).1, hr,
    hdone.framed hlinked hr ?_ ?_ (hapart.handedBack inside _)⟩
  · intro e he
    rw [handedBack, mem_released] at he
    exact hplaced e.1 he.1
  · intro e he
    rw [handedBack, mem_released] at he
    exact he.2.2.2.1

/-- The text of the range is removed, the instance goes home to its fragment, and the text behind
the range is moved into it. -/
theorem Live.framed_of_replaceContents_sampleList :
    ∃ s', Live.replaceContents ⟨2, 5⟩ [.text "eggs", .node 6] sampleList = .ok () s' ∧
      DroppedApart sampleList.forest (sampleList.placedIn ⟨2, 5⟩) [.text "eggs", .node 6] ∧
      ∃ items p before inside behind held,
        Content.allItems sampleList.forest [.text "eggs", .node 6] = .ok items ∧
        NodeRange.Stands ⟨2, 5⟩ sampleList.forest p before inside behind ∧
        Framed ⟨2, 5⟩ sampleList.forest s'.forest p before inside behind
          (items.filterMap Item.node?)
          (handedBack sampleList.forest (sampleList.placedIn ⟨2, 5⟩) [.text "eggs", .node 6] inside
            (items.filterMap Item.node?)) held := by
  have hapart : DroppedApart sampleList.forest (sampleList.placedIn ⟨2, 5⟩)
      [.text "eggs", .node 6] := by
    intro b hb b' hb' hne
    obtain rfl : b = ⟨0, 7, some (4, 4)⟩ := List.mem_singleton.mp hb
    obtain rfl : b' = ⟨0, 7, some (4, 4)⟩ := List.mem_singleton.mp hb'
    exact absurd rfl hne
  exact ⟨_, rfl, hapart, Live.framed_of_replaceContents (s := sampleList) (by decide) (by decide)
    (mayHold_sampleList rfl (by decide)) hapart rfl⟩

end LiveTemplate
