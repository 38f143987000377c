import LiveTemplate.Proofs.Instance.Binding

/-!
# What realizing a template makes

Realizing a template plants trees under a new fragment and binds their markers.  This never
fails and leaves the nodes that were there before as they are (`realize_ok`).  Every range among the
parts is empty at first: its two ends stand next to each other among the children of a new node.
-/

namespace LiveTemplate

set_option autoImplicit false

open Forest

/-- Leaving entries out of a list is leaving their share empty. -/
theorem flatMap_filter_eq {α β : Type} (l : List α) (keep : α → Bool) (f : α → List β) :
    (l.filter keep).flatMap f = l.flatMap fun a => if keep a then f a else [] := by
  induction l with
  | nil => rfl
  | cons a l ih =>
      rw [List.flatMap_cons, ← ih, List.filter_cons]
      cases keep a <;> rfl

namespace Forest

variable {f : Forest}

mutual
/-- Every node of a tree but its topmost one is a child. -/
theorem Stand.exists_parent : ∀ {t : Tree} {n stop m : NodeId}, Stand f t n stop → n < m →
    m < stop → ∃ p, m ∈ f.children p
  | .leaf _, n, stop, m, h, hn, hm => by
      rw [h.2.2] at hm
      exact absurd hn (Nat.not_lt.mpr (Nat.le_of_lt_succ hm))
  | .element _ children, n, stop, m, h, hn, hm => by
      have hchildren : StandAll f children (f.children n) (n + 1) stop := h.2
      rcases hchildren.exists_parent hn hm with hmem | hparent
      · exact ⟨n, hmem⟩
      · exact hparent

theorem StandAll.exists_parent : ∀ {ts : List Tree} {ns : List NodeId} {first stop m : NodeId},
    StandAll f ts ns first stop → first ≤ m → m < stop → m ∈ ns ∨ ∃ p, m ∈ f.children p
  | [], _, first, stop, m, h, hle, hlt => by
      rw [h.2] at hlt
      exact absurd hle (Nat.not_le.mpr hlt)
  | t :: _, _, first, stop, m, h, hle, hlt => by
      obtain ⟨mid, others, hns, hstand, hrest⟩ := h
      rw [hns]
      by_cases hmid : m < mid
      · rcases Nat.eq_or_lt_of_le hle with rfl | hgt
        · exact .inl (by simp)
        · exact .inr (hstand.exists_parent hgt hmid)
      · rcases hrest.exists_parent (Nat.le_of_not_lt hmid) hlt with hmem | hparent
        · exact .inl (by simp [hmem])
        · exact .inr hparent
end

/-- The numbers from `a` on and before `b`. -/
theorem mem_range'_sub {a b n : Nat} : n ∈ List.range' a (b - a) ↔ a ≤ n ∧ n < b := by
  rw [List.mem_range'_1]
  constructor
  · rintro ⟨hle, hlt⟩
    refine ⟨hle, ?_⟩
    by_cases hab : a ≤ b
    · rwa [Nat.add_sub_cancel' hab] at hlt
    · rw [Nat.sub_eq_zero_of_le (Nat.le_of_not_le hab), Nat.add_zero] at hlt
      exact absurd hle (Nat.not_le.mpr hlt)
  · rintro ⟨hle, hlt⟩
    rw [Nat.add_sub_cancel' (Nat.le_of_lt (Nat.lt_of_le_of_lt hle hlt))]
    exact ⟨hle, hlt⟩

theorem mem_marked {m : Markers} {first n : NodeId} : n ∈ f.marked m first ↔
    (first ≤ n ∧ n < f.nextId) ∧ ∃ e, f.element? n = some e ∧
      (e.attributes.has m.attributes || e.attributes.has m.nodes) = true := by
  unfold marked
  rw [List.mem_filter, mem_range'_sub]
  refine and_congr_right fun _ => ?_
  cases f.element? n with
  | none => simp
  | some e => simp

theorem nodup_marked (f : Forest) (m : Markers) (first : NodeId) : (f.marked m first).Nodup :=
  List.Nodup.filter _ List.nodup_range'

end Forest

/-- The ranges among sites. -/
def rangesOf (sites : List Site) : List NodeRange :=
  sites.filterMap fun | .range r => some r | _ => none

theorem mem_rangesOf {sites : List Site} {r : NodeRange} :
    r ∈ rangesOf sites ↔ Site.range r ∈ sites := by
  unfold rangesOf
  rw [List.mem_filterMap]
  constructor
  · rintro ⟨site, hsite, h⟩
    cases site <;> cases h
    exact hsite
  · exact fun h => ⟨_, h, rfl⟩

theorem mem_rangesOf_boundSites {m : Markers} {f : Forest} {places : List NodeId}
    {ranged : NodeId → Option NodeRange} {r : NodeRange} :
    r ∈ rangesOf (places.flatMap (Edit.boundSites m f ranged)) ↔
      ∃ n ∈ places, ranged n = some r := by
  rw [mem_rangesOf, List.mem_flatMap]
  refine exists_congr fun n => and_congr_right fun _ => ?_
  unfold Edit.boundSites
  rw [List.mem_append]
  constructor
  · rintro (h | h)
    · exact absurd h Site.range_not_mem_noted
    · obtain ⟨r', hr', h⟩ := List.mem_map.mp h
      cases h
      simpa using hr'
  · intro h
    exact .inr (List.mem_map.mpr ⟨r, by simp [h], rfl⟩)

mutual
/-- Planting makes no parts. -/
theorem Forest.partsMade_plant : ∀ (t : Tree) (f : Forest) (q : NodeId),
    (f.plant q t).partsMade = f.partsMade
  | .leaf _, _, _ => rfl
  | .element _ children, _, _ => Forest.partsMade_plantAll children _ _

theorem Forest.partsMade_plantAll : ∀ (ts : List Tree) (f : Forest) (q : NodeId),
    (f.plantAll q ts).partsMade = f.partsMade
  | [], _, _ => rfl
  | t :: ts, f, q =>
      (Forest.partsMade_plantAll ts (f.plant q t) q).trans (Forest.partsMade_plant t f q)
end

/-- Realizing trees plants them and binds their markers. -/
theorem realize_bound {f : Forest} (hf : f.Linked) (m : Markers) (ts : List Tree) :
    ∃ ranged parts f', Edit.realize m ts f = .ok (f.nextId, parts) f' ∧
      PartList.sites parts = ((f.plantFragment ts).marked m (f.nextId + 1)).flatMap
        (Edit.boundSites m (f.plantFragment ts) ranged) ∧
      PartList.Numbered f.partsMade f'.partsMade parts ∧
      Edit.Bound m (f.plantFragment ts) f' ((f.plantFragment ts).marked m (f.nextId + 1))
        ranged := by
  have hplanted := planted_plantFragment hf ts
  have hmade : (f.plantFragment ts).partsMade = f.partsMade :=
    Forest.partsMade_plantAll ts (f.grow .fragment) f.nextId
  have hplaces : Edit.Placed (f.plantFragment ts)
      ((f.plantFragment ts).marked m (f.nextId + 1)) := by
    intro n hn
    obtain ⟨⟨hle, hlt⟩, e, he, -⟩ := mem_marked.mp hn
    refine ⟨⟨e, he⟩, ?_⟩
    rcases hplanted.stand.exists_parent hle hlt with hmem | hparent
    · exact ⟨_, hmem⟩
    · exact hparent
  obtain ⟨ranged, parts, f', h⟩ :=
    Edit.bindAll_ok hplanted.linked (nodup_marked _ m (f.nextId + 1)) hplaces
  refine ⟨ranged, parts, f', ?_, h.sites_eq, hmade ▸ h.numbered, h.bound⟩
  unfold Edit.realize
  rw [bind_of_ok (get_ok f)]
  show ((modify (·.plantFragment ts) : Edit Unit) >>= fun _ => get >>= fun g =>
    Edit.bindAll m (Forest.marked g m (f.nextId + 1)) >>= fun parts =>
      pure (f.nextId, parts)) f = _
  rw [bind_of_ok (modify_ok _ f), bind_of_ok (get_ok (f.plantFragment ts)), bind_of_ok h.run]
  rfl

/-- `f'` is `f` with a new fragment, trees below it and the empty ranges `ranges` among these. -/
structure Realized (f f' : Forest) (ranges : List NodeRange) : Prop where
  linked : f'.Linked
  home_lt : f.nextId < f'.nextId
  home_fragment : f'.isFragment f.nextId = true
  children_old : ∀ n, n < f.nextId → f'.children n = f.children n
  kind?_old : ∀ n, n < f.nextId → f'.kind? n = f.kind? n
  mem_new : ∀ n p, n ∈ f'.children p → f.nextId ≤ p → f.nextId < n
  fresh : ∀ r ∈ ranges, f.nextId < r.start ∧ r.stop = r.start + 1 ∧
    f'.text? r.start = none ∧ ∃ q front back, f.nextId ≤ q ∧
      f'.children q = front ++ r.start :: r.stop :: back
  apart : ∀ r ∈ ranges, ∀ r' ∈ ranges, r ≠ r' → r.stop < r'.start ∨ r'.stop < r.start

/-- A range starts where no other range starts or stops. -/
theorem Realized.ranges_apart {f f' : Forest} {ranges : List NodeRange} {r r' : NodeRange}
    (h : Realized f f' ranges) (hr : r ∈ ranges) (hr' : r' ∈ ranges) :
    r.start ≠ r'.stop ∧ (r.start = r'.start → r = r') := by
  by_cases hrr : r = r'
  · subst hrr
    refine ⟨fun heq => ?_, fun _ => rfl⟩
    rw [(h.fresh r hr).2.1] at heq
    exact absurd heq (Nat.ne_of_lt (Nat.lt_succ_self _))
  · have happart := h.apart r hr r' hr' hrr
    rw [(h.fresh r hr).2.1, (h.fresh r' hr').2.1] at happart
    rw [(h.fresh r' hr').2.1]
    refine ⟨fun heq => ?_, fun heq => ?_⟩
    · rw [heq] at happart
      rcases happart with hlt | hlt
      · exact absurd hlt (Nat.not_lt.mpr (Nat.le_add_right _ 2))
      · exact absurd hlt (Nat.lt_irrefl _)
    · rw [heq] at happart
      rcases happart with hlt | hlt
      · exact absurd hlt (Nat.not_lt.mpr (Nat.le_succ _))
      · exact absurd hlt (Nat.not_lt.mpr (Nat.le_succ _))

/-! ## What binding makes of planted trees -/

namespace Edit.Bound

variable {m : Markers} {g f' : Forest} {first n q : NodeId} {r : NodeRange}
  {ranged : NodeId → Option NodeRange}

section Views

variable (h : Edit.Bound m g f' (g.marked m first) ranged)

include h

theorem place_new (hr : ranged n = some r) : first ≤ n ∧ n < g.nextId :=
  (mem_marked.mp (h.fresh n r hr).1).1

theorem kind?_old (hn : n < g.nextId) (hlt : n < first) : f'.kind? n = g.kind? n :=
  h.kind?_kept hn fun hmem => absurd (mem_marked.mp hmem).1.1 (Nat.not_le.mpr hlt)

theorem children_old (hold : ∀ k ∈ g.children n, k < first) : f'.children n = g.children n := by
  rw [h.children_eq]
  refine (List.flatMap_congr fun k hk => ?_).trans (List.flatMap_singleton' _)
  unfold Edit.inPlace
  cases hr : ranged k with
  | none => rfl
  | some r => exact absurd (h.place_new hr).1 (Nat.not_le.mpr (hold k hk))

/-- A child stood there before, or it is one end of a new range. -/
theorem child_origin (hn : n ∈ f'.children q) : n ∈ g.children q ∨ g.nextId ≤ n := by
  rw [h.children_eq, List.mem_flatMap] at hn
  obtain ⟨k, hk, hmem⟩ := hn
  unfold Edit.inPlace at hmem
  cases hr : ranged k with
  | none =>
      rw [hr] at hmem
      obtain rfl : n = k := List.mem_singleton.mp hmem
      exact .inl hk
  | some r =>
      rw [hr] at hmem
      obtain ⟨-, hstart, hstop, -⟩ := h.fresh k r hr
      simp only [List.mem_cons, List.not_mem_nil, or_false] at hmem
      rcases hmem with rfl | rfl
      · exact .inr hstart
      · rw [hstop]
        exact .inr (Nat.le_succ_of_le hstart)

/-- The ends of a new range stand where the element stood. -/
theorem stands_in_place (hr : ranged n = some r) (hq : n ∈ g.children q) :
    ∃ front back, f'.children q = front ++ r.start :: r.stop :: back := by
  obtain ⟨front, back, hsplit⟩ := List.append_of_mem hq
  refine ⟨front.flatMap (Edit.inPlace ranged), back.flatMap (Edit.inPlace ranged), ?_⟩
  rw [h.children_eq, hsplit, List.flatMap_append, List.flatMap_cons]
  congr 1
  unfold Edit.inPlace
  rw [hr]
  rfl

end Views

section Planted

variable {f : Forest} {ts : List Tree} {p : NodeId} (hf : f.Linked) (hplanted : Planted f g ts)
  (h : Edit.Bound m g f' (g.marked m (f.nextId + 1)) ranged)

include hplanted h

theorem kind?_planted (hn : n ≤ f.nextId) : f'.kind? n = g.kind? n :=
  h.kind?_old (Nat.lt_of_le_of_lt hn hplanted.home_lt) (Nat.lt_succ_of_le hn)

theorem isFragment_home : f'.isFragment f.nextId = true := by
  rw [isFragment_eq, kind?_planted hplanted h (Nat.le_refl _), hplanted.kind?_home]
  rfl

include hf

theorem children_planted (hn : n < f.nextId) : f'.children n = f.children n := by
  rw [h.children_old, hplanted.children_old n hn]
  intro k hk
  rw [hplanted.children_old n hn] at hk
  exact Nat.lt_succ_of_lt (hf.lt_nextId hk)

/-- What is below a new node is new. -/
theorem home_lt_child (hn : n ∈ f'.children p) (hp : f.nextId ≤ p) : f.nextId < n := by
  refine Nat.lt_of_not_le fun hle => ?_
  rcases Nat.eq_or_lt_of_le hle with rfl | hlt
  · have hhome := isFragment_home hplanted h
    rw [h.linked.not_isFragment hn] at hhome
    exact nomatch hhome
  · cases hq : f.parent? n with
    | none =>
        rcases h.child_origin hn with hmem | hge
        · rw [hplanted.linked.mem_children_iff, hplanted.parent?_old n hlt, hq] at hmem
          exact nomatch hmem
        · exact absurd (Nat.lt_trans hlt hplanted.home_lt) (Nat.not_lt.mpr hge)
    | some q =>
        have hmem := hf.mem_children_iff.mpr hq
        have hqlt := lt_nextId_of_mem_children hmem
        rw [← children_planted hf hplanted h hqlt] at hmem
        exact absurd (h.linked.parent_unique hn hmem ▸ hqlt) (Nat.not_lt.mpr hp)

/-- The ends of a range stand next to each other below a new node. -/
theorem ends_stand (hr : ranged n = some r) : ∃ q front back, f.nextId ≤ q ∧
    f'.children q = front ++ r.start :: r.stop :: back := by
  obtain ⟨hnew, hnlt⟩ := h.place_new hr
  obtain ⟨q, hq⟩ : ∃ q, n ∈ g.children q := by
    rcases hplanted.stand.exists_parent hnew hnlt with hmem | hparent
    · exact ⟨_, hmem⟩
    · exact hparent
  obtain ⟨front, back, hchildren⟩ := h.stands_in_place hr hq
  refine ⟨q, front, back, Nat.le_of_not_lt fun hqlt => ?_, hchildren⟩
  rw [hplanted.children_old q hqlt] at hq
  exact absurd (hf.lt_nextId hq) (Nat.not_lt.mpr (Nat.le_of_succ_le hnew))

end Planted

end Edit.Bound

/-- Realizing trees succeeds and leaves the nodes that were there alone. -/
theorem realize_ok {f : Forest} (hf : f.Linked) (m : Markers) (ts : List Tree) : ∃ parts f',
    Edit.realize m ts f = .ok (f.nextId, parts) f' ∧
      Realized f f' (rangesOf (PartList.sites parts)) := by
  have hplanted := planted_plantFragment hf ts
  obtain ⟨ranged, parts, f', hrun, hsites, -, hbound⟩ := realize_bound hf m ts
  have hsource : ∀ r ∈ rangesOf (PartList.sites parts), ∃ n, ranged n = some r := by
    intro r hr
    rw [hsites] at hr
    obtain ⟨n, -, hnr⟩ := mem_rangesOf_boundSites.mp hr
    exact ⟨n, hnr⟩
  refine ⟨parts, f', hrun, ?_⟩
  exact
    { linked := hbound.linked
      home_lt := Nat.lt_of_lt_of_le hplanted.home_lt hbound.nextId_le
      home_fragment := hbound.isFragment_home hplanted
      children_old := fun n hn => hbound.children_planted hf hplanted hn
      kind?_old := fun n hn =>
        (hbound.kind?_planted hplanted (Nat.le_of_lt hn)).trans (hplanted.kind?_old n hn)
      mem_new := fun n p hn hp => hbound.home_lt_child hf hplanted hn hp
      fresh := by
        intro r hr
        obtain ⟨n, hnr⟩ := hsource r hr
        obtain ⟨-, hstart, hstop, -, hkind, -⟩ := hbound.fresh n r hnr
        refine ⟨Nat.lt_of_lt_of_le hplanted.home_lt hstart, hstop, ?_,
          hbound.ends_stand hf hplanted hnr⟩
        rw [text?, leaf?_eq, hkind]
        rfl
      apart := by
        intro r hr r' hr' hne
        obtain ⟨n, hnr⟩ := hsource r hr
        obtain ⟨n', hnr'⟩ := hsource r' hr'
        refine hbound.apart n n' r r' hnr hnr' fun he => hne ?_
        rw [he, hnr'] at hnr
        exact (Option.some.inj hnr).symm }

end LiveTemplate
