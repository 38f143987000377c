import LiveTemplate.Proofs.Forest.Growth
import LiveTemplate.Proofs.Instance.Parts
import Mathlib.Logic.Function.Basic

/-!
# What binding the markers makes of a forest

Binding goes through the marked elements one after another and changes the forest at every step,
yet its whole effect has a simple form, `Bound`: every marked element has lost its attribute
marker, and wherever an element that marks a range stood among its siblings, the two ends of that
range stand now.  The function `ranged` says which range that is.

Binding always succeeds (`bindAll_ok`).  What it makes is said by `Binds`, place by place: a part for
every site, and one part where the sites are the same.
-/

namespace LiveTemplate

set_option autoImplicit false

open Forest PartList

/-! ## Single elements -/

/-- The sites that the attribute marker of an element stands for. -/
def Site.noted (m : Markers) (f : Forest) (n : NodeId) : List Site :=
  match f.attribute? n m.attributes with
  | none => []
  | some names => (Markers.split names.toList).map (Site.ofMarkedName n)

/-- The names in a marker stand for sites of its element. -/
theorem Site.exists_name_of_mem_noted {m : Markers} {f : Forest} {n : NodeId} {site : Site}
    (h : site ∈ Site.noted m f n) : ∃ name, site = Site.ofMarkedName n name := by
  unfold Site.noted at h
  cases hnames : f.attribute? n m.attributes with
  | none =>
      rw [hnames] at h
      exact nomatch h
  | some names =>
      rw [hnames] at h
      obtain ⟨name, -, rfl⟩ := List.mem_map.mp h
      exact ⟨name, rfl⟩

/-- Names in a marker never stand for ranges. -/
theorem Site.range_not_mem_noted {m : Markers} {f : Forest} {n : NodeId} {r : NodeRange} :
    Site.range r ∉ Site.noted m f n := by
  intro h
  obtain ⟨name, hname⟩ := Site.exists_name_of_mem_noted h
  exact Site.ofMarkedName_ne_range n name r hname.symm

/-- Whether an element marks a range once its attribute marker is gone. -/
def Markers.marksRange (m : Markers) (e : Element) : Bool :=
  ((e.attributes.erase m.attributes).get? m.nodes).isSome

namespace Edit

variable {f f' : Forest} {m : Markers} {n p q : NodeId} {e : Element}

theorem erase_of_get?_eq_none {as : Attributes} {name : String} (h : as.get? name = none) :
    as.erase name = as := by
  have hhas : as.has name = false := by
    rw [Attributes.has_eq_isSome_get?, h]
    rfl
  unfold Attributes.erase
  rw [List.filter_eq_self]
  intro a ha
  have hne := List.any_eq_false.mp hhas a ha
  simpa using hne

/-- `f'` is `f` but for the attribute marker of the element `n`, which is gone. -/
structure Unmarked (m : Markers) (f f' : Forest) (n : NodeId) : Prop where
  linked : f'.Linked
  children_eq : ∀ q, f'.children q = f.children q
  parent?_eq : ∀ k, f'.parent? k = f.parent? k
  kind?_eq : ∀ k, f'.kind? k =
    if n = k then (f.kind? k).map (NodeKind.withAttribute m.attributes none) else f.kind? k
  nextId_eq : f'.nextId = f.nextId

/-- How many parts have been made is told from no node. -/
theorem Unmarked.partsMade (h : Unmarked m f f' n) (made : PartId) :
    Unmarked m f { f' with partsMade := made } n where
  linked := h.linked.of_views (fun _ => rfl) (fun _ => rfl) fun _ => h.linked.alone_of_isFragment
  children_eq := h.children_eq
  parent?_eq := h.parent?_eq
  kind?_eq := h.kind?_eq
  nextId_eq := h.nextId_eq

theorem kind?_of_element? (h : f.element? n = some e) : f.kind? n = some (.element e) := by
  rw [element?_eq] at h
  rcases hk : f.kind? n with _ | _ | _ | _ <;> rw [hk] at h <;> cases h
  rfl

theorem element?_of_kind? (h : f.kind? n = some (.element e)) : f.element? n = some e := by
  rw [element?_eq, h]
  rfl

/-- The attribute marker of an element is read off and taken away, and equal names in it have become
one part. -/
structure ReadsOff (m : Markers) (f f' : Forest) (n : NodeId) (parts : List Part) : Prop where
  run : bindAttributes m n f = .ok parts f'
  unmarked : Unmarked m f f' n
  partsMade_le : f.partsMade ≤ f'.partsMade
  sites_eq : sites parts = Site.noted m f n
  numbered : Numbered f.partsMade f'.partsMade parts

theorem bindAttributes_ok (hf : f.Linked) (hn : f.element? n = some e) :
    ∃ parts f', ReadsOff m f f' n parts := by
  have hget : f.attribute? n m.attributes = e.attributes.get? m.attributes := by
    unfold attribute?
    rw [hn]
    rfl
  cases hnames : e.attributes.get? m.attributes with
  | none =>
      have hnoted : Site.noted m f n = [] := by
        unfold Site.noted
        rw [hget, hnames]
      have hrun : bindAttributes m n f = .ok [] f := by
        unfold bindAttributes
        rw [bind_of_ok (get_ok f), hget, hnames]
        rfl
      refine ⟨[], f, hrun, ⟨hf, fun _ => rfl, fun _ => rfl, fun k => ?_, rfl⟩, Nat.le_refl _,
        hnoted.symm, Numbered.nil _ _⟩
      by_cases hk : n = k
      · rw [if_pos hk, ← hk, kind?_of_element? hn]
        show some (NodeKind.element e) = some (NodeKind.element { e with
          attributes := e.attributes.erase m.attributes })
        rw [erase_of_get?_eq_none hnames]
      · rw [if_neg hk]
  | some names =>
      obtain ⟨parts, made, hrun, hmade, hsites, hnumbered⟩ :=
        bindNames_ok (Markers.split names.toList) (Nat.le_refl f.partsMade) (Known.nil n _ _)
      let f₁ := f.setAttribute n m.attributes none
      have hunmarked : Unmarked m f f₁ n :=
        ⟨hf.setAttribute n _ _, fun q => (links_setAttribute f n _ _ q).1,
          fun k => (links_setAttribute f n _ _ k).2, kind?_setAttribute f n _ _,
          nextId_setAttribute f n _ _⟩
      refine ⟨parts, { f₁ with partsMade := made }, ?_, hunmarked.partsMade made, hmade, ?_,
        hnumbered⟩
      · unfold bindAttributes
        rw [bind_of_ok (get_ok f), hget, hnames]
        exact bind_of_ok hrun
      · unfold Site.noted
        rw [hget, hnames]
        exact hsites

/-- The two ends of a new range take the place of a node, and a part is made of the range. -/
structure Ranged (f f' : Forest) (n : NodeId) : Prop where
  linked : f'.Linked
  children_eq : ∀ q, f'.children q =
    (f.children q).flatMap fun k => if k = n then [f.nextId, f.nextId + 1] else [k]
  kind?_eq : ∀ k, k < f.nextId → f'.kind? k = f.kind? k
  kind?_start : f'.kind? f.nextId = some (.leaf .sentinel)
  kind?_stop : f'.kind? (f.nextId + 1) = some (.leaf .sentinel)
  nextId_eq : f'.nextId = f.nextId + 2
  partsMade_eq : f'.partsMade = f.partsMade + 1

theorem flatMap_of_not_mem {l : List NodeId} {ends : List NodeId} (h : n ∉ l) :
    (l.flatMap fun k => if k = n then ends else [k]) = l := by
  induction l with
  | nil => rfl
  | cons k l ih =>
      rw [List.mem_cons, not_or] at h
      rw [List.flatMap_cons, ih h.2, if_neg (Ne.symm h.1)]
      rfl

theorem flatMap_of_nodup {before behind ends : List NodeId} (h : (before ++ n :: behind).Nodup) :
    ((before ++ n :: behind).flatMap fun k => if k = n then ends else [k])
      = before ++ (ends ++ behind) := by
  rw [List.nodup_append, List.nodup_cons] at h
  have hbefore : n ∉ before := fun hmem => h.2.2 n hmem n (by simp) rfl
  rw [List.flatMap_append, List.flatMap_cons, if_pos rfl, flatMap_of_not_mem hbefore,
    flatMap_of_not_mem h.2.1.1]

/-- The forest with two sentinels more, which stand nowhere yet. -/
def withEnds (f : Forest) : Forest := (f.grow (.leaf .sentinel)).grow (.leaf .sentinel)

theorem nextId_withEnds (f : Forest) : (withEnds f).nextId = f.nextId + 2 := by
  rw [withEnds, nextId_grow, nextId_grow]

theorem children_withEnds (f : Forest) (q : NodeId) : (withEnds f).children q = f.children q := by
  rw [withEnds, children_grow, children_grow]

theorem parent?_withEnds (f : Forest) (k : NodeId) : (withEnds f).parent? k = f.parent? k := by
  rw [withEnds, parent?_grow, parent?_grow]

theorem kind?_withEnds_of_lt (hn : n < f.nextId) : (withEnds f).kind? n = f.kind? n := by
  rw [withEnds, kind?_grow_of_lt _ (by rw [nextId_grow]; exact Nat.lt_succ_of_lt hn),
    kind?_grow_of_lt _ hn]

theorem kind?_withEnds_start (f : Forest) :
    (withEnds f).kind? f.nextId = some (.leaf .sentinel) := by
  rw [withEnds, kind?_grow_of_lt _ (by rw [nextId_grow]; exact Nat.lt_succ_self _),
    kind?_grow_self]

theorem kind?_withEnds_stop (f : Forest) :
    (withEnds f).kind? (f.nextId + 1) = some (.leaf .sentinel) := by
  rw [withEnds, ← nextId_grow f (.leaf .sentinel), kind?_grow_self]

/-- The two sentinels take the place of a child, one next to the other. -/
theorem relinked_ends (hf : f.Linked) (hp : n ∈ f.children p) :
    ∃ f₁ f₂, replaceChild p (f.nextId + 1) n (withEnds f) = .ok () f₁ ∧
      insertBefore p f.nextId (some (f.nextId + 1)) f₁ = .ok () f₂ ∧
      Relinked (withEnds f) f₂ fun q =>
        (f.children q).flatMap fun k => if k = n then [f.nextId, f.nextId + 1] else [k] := by
  obtain ⟨before, behind, hsplit⟩ := List.append_of_mem hp
  have hlinked : (withEnds f).Linked := (hf.grow _).grow _
  have hsize := nextId_withEnds f
  have hlt : p < f.nextId := lt_nextId_of_mem_children hp
  have hloose : (withEnds f).parent? (f.nextId + 1) = none := by
    rw [parent?_withEnds, parent?, node?_eq_none_iff.mpr (Nat.le_succ _)]
    rfl
  obtain ⟨f₁, hreplace, hf₁⟩ := relinked_replaceChild (n := f.nextId + 1) hlinked
    ((children_withEnds f p).trans hsplit) hloose (Nat.ne_of_gt (Nat.lt_succ_of_lt hlt))
    (by rw [hsize]; exact Nat.lt_succ_self _) (by rw [isFragment_eq, kind?_withEnds_stop]; rfl)
  have hp₁ : f₁.children p = before ++ (f.nextId + 1) :: behind := by
    rw [hf₁.children_eq, if_pos rfl]
  obtain ⟨f₂, hinsert, hf₂⟩ := relinked_insertBefore (n := f.nextId) hf₁.linked hp₁
    (Nat.ne_of_lt (Nat.lt_succ_self _)) (Nat.ne_of_gt hlt)
    (by rw [hf₁.nextId_eq, hsize]; exact Nat.lt_succ_of_lt (Nat.lt_succ_self _))
    (by rw [hf₁.isFragment_eq, isFragment_eq, kind?_withEnds_start]; rfl)
  have hout : ∀ (q : NodeId) (l : List NodeId), l ⊆ f.children q →
      l.filter (· ≠ f.nextId) = l := fun q l hl =>
    filter_ne_of_not_mem fun hmem => absurd (hf.lt_nextId (hl hmem)) (Nat.lt_irrefl _)
  refine ⟨f₁, f₂, hreplace, hinsert, (hf₁.trans hf₂).congr fun q => ?_⟩
  by_cases hq : q = p
  · rw [if_pos hq, hq, hsplit, flatMap_of_nodup (hsplit ▸ hf.nodup_children p),
      hout p before fun k hk => by simp [hsplit, hk],
      hout p behind fun k hk => by simp [hsplit, hk]]
    rfl
  · rw [if_neg hq, hf₁.children_eq, if_neg hq, children_withEnds, hout q _ fun _ hk => hk,
      flatMap_of_not_mem fun h => hq (hf.parent_unique h hp)]

/-- An element that marks a range gives way to an empty one. -/
theorem bindRange_ok (hf : f.Linked) (hp : n ∈ f.children p)
    (hn : (f.attribute? n m.nodes).isSome = true) :
    ∃ f', bindRange m n f = .ok [⟨f.partsMade, .range ⟨f.nextId, f.nextId + 1⟩⟩] f' ∧
      Ranged f f' n := by
  obtain ⟨value, hvalue⟩ := Option.isSome_iff_exists.mp hn
  obtain ⟨f₁, f₂, hreplace, hinsert, hf₂⟩ := relinked_ends hf hp
  have hmade : f₂.partsMade = f.partsMade := hf₂.partsMade_eq
  refine ⟨{ f₂ with partsMade := f.partsMade + 1 }, ?_, ?_⟩
  · let sentinel := NodeKind.leaf .sentinel
    unfold bindRange
    rw [bind_of_ok (get_ok f), hvalue, hf.mem_children_iff.mp hp]
    show (Edit.grow sentinel >>= fun start => Edit.grow sentinel >>= fun stop =>
      replaceChild p stop n >>= fun _ => insertBefore p start (some stop) >>= fun _ =>
        makePart (.range ⟨start, stop⟩) >>= fun part => pure [part]) f = _
    rw [bind_of_ok (grow_ok sentinel f), bind_of_ok (grow_ok sentinel (f.grow sentinel)),
      nextId_grow, ← hmade]
    exact (bind_of_ok hreplace).trans (bind_of_ok hinsert)
  · exact
      { linked := hf₂.linked.of_views (fun _ => rfl) (fun _ => rfl) fun _ =>
          hf₂.linked.alone_of_isFragment
        children_eq := hf₂.children_eq
        kind?_eq := fun k hk => (hf₂.kind?_eq k).trans (kind?_withEnds_of_lt hk)
        kind?_start := (hf₂.kind?_eq _).trans (kind?_withEnds_start f)
        kind?_stop := (hf₂.kind?_eq _).trans (kind?_withEnds_stop f)
        nextId_eq := hf₂.nextId_eq.trans (nextId_withEnds f)
        partsMade_eq := rfl }

theorem bindRange_of_none (hn : f.attribute? n m.nodes = none) :
    bindRange m n f = .ok [] f := by
  unfold bindRange
  rw [bind_of_ok (get_ok f), hn]
  rfl

/-! ## All marked elements -/

/-- What stands in the place of a node: the ends of its range, or the node itself if it has
none. -/
def inPlace (ranged : NodeId → Option NodeRange) (n : NodeId) : List NodeId :=
  match ranged n with
  | some r => [r.start, r.stop]
  | none => [n]

/-- The sites that an element is bound to. -/
def boundSites (m : Markers) (f : Forest) (ranged : NodeId → Option NodeRange) (n : NodeId) :
    List Site :=
  Site.noted m f n ++ (ranged n).toList.map Site.range

/-- The places are bound: their attribute markers are gone, and the ends of the ranges stand where
the elements stood that `ranged` gives a range to. -/
structure Bound (m : Markers) (f f' : Forest) (places : List NodeId)
    (ranged : NodeId → Option NodeRange) : Prop where
  linked : f'.Linked
  nextId_le : f.nextId ≤ f'.nextId
  children_eq : ∀ q, f'.children q = (f.children q).flatMap (inPlace ranged)
  kind?_eq : ∀ n, n < f.nextId → f'.kind? n =
    if n ∈ places then (f.kind? n).map (NodeKind.withAttribute m.attributes none) else f.kind? n
  ranged_isSome : ∀ n e, f.element? n = some e →
    (ranged n).isSome = (decide (n ∈ places) && m.marksRange e)
  fresh : ∀ n r, ranged n = some r → n ∈ places ∧ f.nextId ≤ r.start ∧ r.stop = r.start + 1 ∧
    r.stop < f'.nextId ∧ f'.kind? r.start = some (.leaf .sentinel) ∧
    f'.kind? r.stop = some (.leaf .sentinel)
  apart : ∀ n n' r r', ranged n = some r → ranged n' = some r' → n ≠ n' →
    r.stop < r'.start ∨ r'.stop < r.start

variable {places : List NodeId}

theorem Bound.nil (hf : f.Linked) : Bound m f f [] fun _ => none where
  linked := hf
  nextId_le := Nat.le_refl _
  children_eq := fun q => by
    show _ = (f.children q).flatMap fun n => [n]
    rw [List.flatMap_singleton']
  kind?_eq := fun _ _ => by simp
  ranged_isSome := fun _ _ _ => by simp
  fresh := nofun
  apart := nofun

/-- One place more has lost its attribute marker. -/
theorem Unmarked.kind?_cons {f₁ : Forest} (h : Unmarked m f f₁ n) (hout : n ∉ places)
    (k : NodeId) :
    (if k ∈ places then (f₁.kind? k).map (NodeKind.withAttribute m.attributes none)
      else f₁.kind? k)
      = if k ∈ n :: places then (f.kind? k).map (NodeKind.withAttribute m.attributes none)
        else f.kind? k := by
  rw [h.kind?_eq]
  by_cases hkn : n = k
  · subst hkn
    rw [if_neg hout, if_pos rfl, if_pos (by simp)]
  · have hiff : k ∈ n :: places ↔ k ∈ places := by simp [Ne.symm hkn]
    rw [if_neg hkn]
    simp only [hiff]

/-- What an element marks is read when its attribute marker is gone. -/
theorem Unmarked.isSome_nodes {f₁ : Forest} (h : Unmarked m f f₁ n) (hn : f.element? n = some e) :
    (f₁.attribute? n m.nodes).isSome = m.marksRange e := by
  have hkind := h.kind?_eq n
  rw [if_pos rfl, kind?_of_element? hn] at hkind
  unfold attribute?
  rw [element?_of_kind? hkind]
  rfl

/-- The other places are of the kinds they were of. -/
theorem Unmarked.kind?_places {f₁ : Forest} (h : Unmarked m f f₁ n) (hout : n ∉ places) :
    ∀ k ∈ places, f₁.kind? k = f.kind? k := by
  intro k hk
  rw [h.kind?_eq, if_neg (ne_of_mem_of_not_mem hk hout).symm]

theorem Ranged.kind?_places {f₁ f₂ : Forest} (h : Ranged f₁ f₂ n) (h₁ : Unmarked m f f₁ n)
    (hout : n ∉ places) (hplaces : ∀ k ∈ places, k < f.nextId) :
    ∀ k ∈ places, f₂.kind? k = f.kind? k := by
  intro k hk
  rw [h.kind?_eq k (by rw [h₁.nextId_eq]; exact hplaces k hk), h₁.kind?_places hout k hk]

/-- An element that marks no range only loses its attribute marker. -/
theorem Bound.cons_unmarked {f₁ : Forest} {ranged : NodeId → Option NodeRange}
    (hn : f.element? n = some e) (hout : n ∉ places)
    (hmarks : m.marksRange e = false)
    (h₁ : Unmarked m f f₁ n) (h : Bound m f₁ f' places ranged) :
    Bound m f f' (n :: places) ranged where
  linked := h.linked
  nextId_le := Nat.le_trans (Nat.le_of_eq h₁.nextId_eq.symm) h.nextId_le
  children_eq := fun q => by rw [h.children_eq, h₁.children_eq]
  kind?_eq := by
    intro k hk
    rw [h.kind?_eq k (by rwa [h₁.nextId_eq]), h₁.kind?_cons hout]
  ranged_isSome := by
    intro k e' hk
    by_cases hkn : n = k
    · subst hkn
      obtain rfl : e = e' := Option.some.inj (hn.symm.trans hk)
      have hkind := h₁.kind?_eq n
      rw [if_pos rfl, kind?_of_element? hn] at hkind
      rw [h.ranged_isSome n _ (element?_of_kind? hkind), hmarks]
      simp [hout]
    · have hkind := h₁.kind?_eq k
      rw [if_neg hkn, kind?_of_element? hk] at hkind
      rw [h.ranged_isSome k _ (element?_of_kind? hkind)]
      simp [Ne.symm hkn]
  fresh := by
    intro k r hr
    obtain ⟨hmem, hge, hrest⟩ := h.fresh k r hr
    exact ⟨by simp [hmem], by rwa [h₁.nextId_eq] at hge, hrest⟩
  apart := h.apart

/-- What is no place has no range. -/
theorem Bound.unranged {ranged : NodeId → Option NodeRange} (h : Bound m f f' places ranged)
    (hn : n ∉ places) : ranged n = none := by
  cases hr : ranged n with
  | none => rfl
  | some r => exact absurd (h.fresh n r hr).1 hn

/-- A site is bound to one place. -/
theorem Bound.place_unique {ranged : NodeId → Option NodeRange} {g : Forest} {site : Site}
    (h : Bound m f f' places ranged) (hp : site ∈ boundSites m g ranged p)
    (hq : site ∈ boundSites m g ranged q) : p = q := by
  unfold boundSites at hp hq
  rw [List.mem_append, List.mem_map] at hp hq
  rcases hp with hp | ⟨r, hp, rfl⟩
  · rcases hq with hq | ⟨r, -, rfl⟩
    · obtain ⟨name, rfl⟩ := Site.exists_name_of_mem_noted hp
      obtain ⟨name', hname⟩ := Site.exists_name_of_mem_noted hq
      exact (Site.ofMarkedName_inj hname).1
    · exact absurd hp Site.range_not_mem_noted
  · rcases hq with hq | ⟨r', hq, hrange⟩
    · exact absurd hq Site.range_not_mem_noted
    · obtain rfl : r' = r := Site.range.inj hrange
      rw [Option.mem_toList] at hp hq
      by_contra hne
      have hlt := or_self_iff.mp (h.apart p q r' r' hp hq hne)
      rw [(h.fresh p r' hp).2.2.1] at hlt
      exact absurd hlt (Nat.not_lt.mpr (Nat.le_succ _))

/-- What is no place is of the kind it was of. -/
theorem Bound.kind?_kept {ranged : NodeId → Option NodeRange} (h : Bound m f f' places ranged)
    (hlt : n < f.nextId) (hn : n ∉ places) : f'.kind? n = f.kind? n := by
  rw [h.kind?_eq n hlt, if_neg hn]

/-- An element that marks a range loses its attribute marker and gives way to the range. -/
theorem Bound.cons_ranged {f₁ f₂ : Forest} {ranged : NodeId → Option NodeRange}
    (hn : f.element? n = some e) (hout : n ∉ places)
    (hplaces : ∀ k ∈ places, k < f.nextId) (hmarks : m.marksRange e = true)
    (h₁ : Unmarked m f f₁ n) (h₂ : Ranged f₁ f₂ n) (h : Bound m f₂ f' places ranged) :
    Bound m f f' (n :: places)
      (Function.update ranged n (some ⟨f.nextId, f.nextId + 1⟩)) := by
  have hsize : f₂.nextId = f.nextId + 2 := by rw [h₂.nextId_eq, h₁.nextId_eq]
  have hstop : f.nextId + 1 < f₂.nextId := hsize ▸ Nat.lt_succ_self _
  have hstart : f.nextId < f₂.nextId := Nat.lt_of_succ_lt hstop
  have hnot : ∀ k, f.nextId ≤ k → k ∉ places := fun k hk hmem =>
    absurd (hplaces k hmem) (Nat.not_lt.mpr hk)
  have hkindStart : f'.kind? f.nextId = some (.leaf .sentinel) := by
    rw [h.kind?_kept hstart (hnot _ (Nat.le_refl _)), ← h₁.nextId_eq, h₂.kind?_start]
  have hkindStop : f'.kind? (f.nextId + 1) = some (.leaf .sentinel) := by
    rw [h.kind?_kept hstop (hnot _ (Nat.le_succ _)), ← h₁.nextId_eq, h₂.kind?_stop]
  have hafter : ∀ k r, ranged k = some r → f.nextId + 1 < r.start := fun k r hr =>
    Nat.lt_of_lt_of_le hstop (h.fresh k r hr).2.1
  exact
    { linked := h.linked
      nextId_le := Nat.le_trans (Nat.le_of_lt hstart) h.nextId_le
      children_eq := by
        intro q
        rw [h.children_eq, h₂.children_eq, h₁.children_eq, List.flatMap_assoc]
        congr 1
        funext k
        unfold inPlace
        rw [h₁.nextId_eq]
        by_cases hk : k = n
        · rw [if_pos hk, hk, Function.update_self]
          simp [h.unranged (hnot _ (Nat.le_refl f.nextId)), h.unranged (hnot _ (Nat.le_succ _))]
        · rw [if_neg hk, Function.update_of_ne hk]
          simp
      kind?_eq := by
        intro k hk
        have hk₁ : k < f₁.nextId := by rwa [h₁.nextId_eq]
        rw [h.kind?_eq k (Nat.lt_trans hk hstart), h₂.kind?_eq k hk₁, h₁.kind?_cons hout]
      ranged_isSome := by
        intro k e' hk
        by_cases hkn : k = n
        · subst hkn
          obtain rfl : e = e' := Option.some.inj (hn.symm.trans hk)
          rw [Function.update_self, hmarks]
          simp
        · have hkindOld := kind?_of_element? hk
          have hkind := h₂.kind?_eq k (by rw [h₁.nextId_eq]; exact lt_nextId_of_kind? hkindOld)
          rw [h₁.kind?_eq, if_neg (Ne.symm hkn), hkindOld] at hkind
          rw [Function.update_of_ne hkn, h.ranged_isSome k _ (element?_of_kind? hkind)]
          simp [hkn]
      fresh := by
        intro k r hr
        by_cases hkn : k = n
        · rw [hkn, Function.update_self, Option.some.injEq] at hr
          subst hr
          exact ⟨by simp [hkn], Nat.le_refl _, rfl, Nat.lt_of_lt_of_le hstop h.nextId_le,
            hkindStart, hkindStop⟩
        · rw [Function.update_of_ne hkn] at hr
          obtain ⟨hmem, hge, hrest⟩ := h.fresh k r hr
          exact ⟨by simp [hmem], Nat.le_trans (Nat.le_of_lt hstart) hge, hrest⟩
      apart := by
        intro k k' r r' hr hr' hne
        by_cases hk : k = n
        · have hk' : k' ≠ n := fun e => hne (hk.trans e.symm)
          rw [hk, Function.update_self, Option.some.injEq] at hr
          rw [Function.update_of_ne hk'] at hr'
          subst hr
          exact .inl (hafter k' r' hr')
        · rw [Function.update_of_ne hk] at hr
          by_cases hk' : k' = n
          · rw [hk', Function.update_self, Option.some.injEq] at hr'
            subst hr'
            exact .inr (hafter k r hr)
          · rw [Function.update_of_ne hk'] at hr'
            exact h.apart k k' r r' hr hr' hne }

/-- The places are elements below other nodes. -/
def Placed (f : Forest) (places : List NodeId) : Prop :=
  ∀ n ∈ places, (∃ e, f.element? n = some e) ∧ ∃ p, n ∈ f.children p

theorem Placed.congr {g : Forest} (h : Placed f places)
    (hkind : ∀ k ∈ places, g.kind? k = f.kind? k)
    (hchildren : ∀ k ∈ places, ∀ q, k ∈ f.children q → k ∈ g.children q) : Placed g places := by
  intro k hk
  obtain ⟨⟨e, he⟩, q, hq⟩ := h k hk
  exact ⟨⟨e, (element?_congr (hkind k hk)).trans he⟩, q, hchildren k hk q hq⟩

/-- Sites are told from the kinds of the places and from their ranges. -/
theorem flatMap_boundSites_congr {g : Forest} {ranged ranged' : NodeId → Option NodeRange}
    (hkind : ∀ k ∈ places, g.kind? k = f.kind? k) (hranged : ∀ k ∈ places, ranged k = ranged' k) :
    places.flatMap (boundSites m g ranged) = places.flatMap (boundSites m f ranged') := by
  refine List.flatMap_congr fun k hk => ?_
  unfold boundSites Site.noted attribute?
  rw [element?_congr (hkind k hk), hranged k hk]

/-- What binding makes of places in order: the parts, one for every site, and the ranges. -/
structure Binds (m : Markers) (f f' : Forest) (places : List NodeId) (parts : List Part)
    (ranged : NodeId → Option NodeRange) : Prop where
  run : bindAll m places f = .ok parts f'
  sites_eq : sites parts = places.flatMap (boundSites m f ranged)
  partsMade_le : f.partsMade ≤ f'.partsMade
  numbered : Numbered f.partsMade f'.partsMade parts
  bound : Bound m f f' places ranged

namespace Binds

variable {ranged : NodeId → Option NodeRange} {own parts : List Part} {mid : PartId}

theorem nil (hf : f.Linked) : Binds m f f [] [] fun _ => none where
  run := rfl
  sites_eq := rfl
  partsMade_le := Nat.le_refl _
  numbered := Numbered.nil _ _
  bound := Bound.nil hf

/-- The parts of one more place come first.  No later one has a site of theirs. -/
theorem cons (hout : n ∉ places) (hbound : Bound m f f' (n :: places) ranged)
    (hrun : bindAll m (n :: places) f = .ok (own ++ parts) f')
    (hown : sites own = boundSites m f ranged n)
    (hothers : sites parts = places.flatMap (boundSites m f ranged))
    (hlo : f.partsMade ≤ mid) (hhi : mid ≤ f'.partsMade)
    (hfirst : Numbered f.partsMade mid own) (hlater : Numbered mid f'.partsMade parts) :
    Binds m f f' (n :: places) (own ++ parts) ranged where
  run := hrun
  sites_eq := by rw [sites_append, hown, hothers, List.flatMap_cons]
  partsMade_le := Nat.le_trans hlo hhi
  numbered := by
    refine hfirst.append hlater hlo hhi fun p hp q hq hsite => ?_
    have hpsite : p.site ∈ boundSites m f ranged n := hown ▸ List.mem_map_of_mem hp
    have hqsite : q.site ∈ places.flatMap (boundSites m f ranged) :=
      hothers ▸ List.mem_map_of_mem hq
    obtain ⟨k, hk, hkq⟩ := List.mem_flatMap.mp hqsite
    exact hout (hbound.place_unique hpsite (hsite ▸ hkq) ▸ hk)
  bound := hbound

end Binds

/-- The place is an element that marks no range. -/
theorem Binds.cons_unmarked {f₁ : Forest} {ranged : NodeId → Option NodeRange}
    {noted parts : List Part} (hn : f.element? n = some e) (hout : n ∉ places)
    (hmarks : m.marksRange e = false) (h₁ : ReadsOff m f f₁ n noted)
    (h : Binds m f₁ f' places parts ranged) :
    Binds m f f' (n :: places) (noted ++ parts) ranged := by
  have hnone := h₁.unmarked.isSome_nodes hn
  rw [hmarks, Option.isSome_eq_false_iff, Option.isNone_iff_eq_none] at hnone
  have hbound := h.bound.cons_unmarked hn hout hmarks h₁.unmarked
  have hothers := h.sites_eq.trans
    (flatMap_boundSites_congr (h₁.unmarked.kind?_places hout) fun _ _ => rfl)
  refine .cons hout hbound ?_ ?_ hothers h₁.partsMade_le h.partsMade_le h₁.numbered h.numbered
  · unfold bindAll
    rw [bind_of_ok h₁.run, bind_of_ok (bindRange_of_none hnone), bind_of_ok h.run,
      List.append_nil]
    rfl
  · unfold boundSites
    rw [h₁.sites_eq, h.bound.unranged hout]
    exact (List.append_nil _).symm

/-- The place is an element that marks a range, which becomes the last part of the place. -/
theorem Binds.cons_ranged {f₁ f₂ : Forest} {ranged : NodeId → Option NodeRange}
    {noted parts : List Part} (hn : f.element? n = some e) (hout : n ∉ places)
    (hplaces : ∀ k ∈ places, k < f.nextId) (hmarks : m.marksRange e = true)
    (h₁ : ReadsOff m f f₁ n noted)
    (hrange : bindRange m n f₁ = .ok [⟨f₁.partsMade, .range ⟨f₁.nextId, f₁.nextId + 1⟩⟩] f₂)
    (h₂ : Ranged f₁ f₂ n) (h : Binds m f₂ f' places parts ranged) :
    Binds m f f' (n :: places)
      (noted ++ [⟨f₁.partsMade, .range ⟨f₁.nextId, f₁.nextId + 1⟩⟩] ++ parts)
      (Function.update ranged n (some ⟨f.nextId, f.nextId + 1⟩)) := by
  let r : NodeRange := ⟨f₁.nextId, f₁.nextId + 1⟩
  have hkind := h₂.kind?_places h₁.unmarked hout hplaces
  have hbound := h.bound.cons_ranged hn hout hplaces hmarks h₁.unmarked h₂
  have hranged : ∀ k ∈ places,
      ranged k = Function.update ranged n (some ⟨f.nextId, f.nextId + 1⟩) k := fun k hk =>
    (Function.update_of_ne (ne_of_mem_of_not_mem hk hout) _ ranged).symm
  have hothers := h.sites_eq.trans (flatMap_boundSites_congr hkind hranged)
  have hapart : ∀ p ∈ noted, ∀ q ∈ [(⟨f₁.partsMade, .range r⟩ : Part)], p.site ≠ q.site := by
    intro p hp q hq hsite
    rw [List.mem_singleton.mp hq] at hsite
    have hpsite : p.site ∈ Site.noted m f n := h₁.sites_eq ▸ List.mem_map_of_mem hp
    exact Site.range_not_mem_noted (hsite ▸ hpsite)
  have hown := h₁.numbered.append (Numbered.singleton f₁.partsMade (.range r)) h₁.partsMade_le
    (Nat.le_succ _) hapart
  have hmade := h.partsMade_le
  have hnumbered := h.numbered
  rw [h₂.partsMade_eq] at hmade hnumbered
  refine .cons hout hbound ?_ ?_ hothers (Nat.le_succ_of_le h₁.partsMade_le) hmade hown hnumbered
  · unfold bindAll
    rw [bind_of_ok h₁.run, bind_of_ok hrange, bind_of_ok h.run]
    rfl
  · unfold boundSites
    rw [sites_append, h₁.sites_eq, Function.update_self, h₁.unmarked.nextId_eq]
    rfl

/-- Binding elements of trees succeeds, and the parts of one site are one part. -/
theorem bindAll_ok (hf : f.Linked) (hnodup : places.Nodup) (hplaces : Placed f places) :
    ∃ ranged parts f', Binds m f f' places parts ranged := by
  induction places generalizing f with
  | nil => exact ⟨fun _ => none, [], f, Binds.nil hf⟩
  | cons n places ih =>
      obtain ⟨hout, hrest⟩ := List.nodup_cons.mp hnodup
      obtain ⟨⟨e, hn⟩, p, hp⟩ := hplaces n (by simp)
      have hlater : Placed f places := fun k hk => hplaces k (by simp [hk])
      have hlt : ∀ k ∈ places, k < f.nextId := by
        intro k hk
        obtain ⟨-, q, hq⟩ := hlater k hk
        exact hf.lt_nextId hq
      obtain ⟨noted, f₁, h₁⟩ := bindAttributes_ok (m := m) hf hn
      have hlinked := h₁.unmarked.linked
      have hchildren := h₁.unmarked.children_eq
      cases hmarks : m.marksRange e with
      | false =>
          obtain ⟨ranged, parts, f', h⟩ := ih hlinked hrest
            (hlater.congr (h₁.unmarked.kind?_places hout) fun k _ q hq => by rwa [hchildren])
          exact ⟨ranged, noted ++ parts, f', h.cons_unmarked hn hout hmarks h₁⟩
      | true =>
          obtain ⟨f₂, hrange, h₂⟩ := bindRange_ok hlinked (by rw [hchildren]; exact hp)
            ((h₁.unmarked.isSome_nodes hn).trans hmarks)
          obtain ⟨ranged, parts, f', h⟩ := ih h₂.linked hrest
            (hlater.congr (h₂.kind?_places h₁.unmarked hout hlt) fun k hk q hq => by
              rw [h₂.children_eq, hchildren, List.mem_flatMap]
              exact ⟨k, hq, by rw [if_neg (ne_of_mem_of_not_mem hk hout)]; simp⟩)
          exact ⟨_, _, f', h.cons_ranged hn hout hlt hmarks h₁ hrange h₂⟩

end Edit

end LiveTemplate
