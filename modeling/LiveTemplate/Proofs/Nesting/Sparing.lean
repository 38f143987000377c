import LiveTemplate.Proofs.Nesting.Acts

/-!
# When dropped instances stay whole

A call that gives a range new contents drops the instances it held before and is not given again.
The roots of a dropped instance that still stands in the range should be the same behind the call.
They are exactly when the call spares it: `keeps_iff_spares` says so for one call on a nested
session, and `staysWhole_iff_sparesAll` for whole runs.

Nothing in the code sees to it that calls spare what they drop.  `not_staysWhole_unwrapping` is a
run on which an instance is torn apart: the range of a list holds a wrapper, the wrapper holds an
item at its top level, and then the list is given the item alone.
-/

namespace LiveTemplate

set_option autoImplicit false

open Forest NodeRange

/-! ## Nodes that come home -/

/-- What the last block takes home stays there. -/
theorem mem_homecomings_of_last {front back : List (Block × List NodeId)}
    {e : Block × List NodeId} {n : NodeId} (hn : n ∈ e.2) (hback : ∀ e' ∈ back, n ∉ e'.2) :
    n ∈ homecomings (front ++ e :: back) e.1.home := by
  rw [homecomings_append, homecomings, if_pos rfl]
  refine List.mem_append_right _ (List.mem_append_left _ (List.mem_filter.mpr ⟨hn, ?_⟩))
  refine decide_eq_true fun hmem => ?_
  obtain ⟨e', he', hn'⟩ := List.mem_flatMap.mp hmem
  exact hback e' he' hn'

/-! ## One call -/

namespace Nested

variable {s : Session} {L : Layout} {r : NodeRange} {contents : List Content}
  {items : List Item} {f : Forest} {entries : List Entry} {p : NodeId}
  {before behind roots : List NodeId} {b : Block}

section Keeping

variable (h : Nested s L) (hcall : s.Accepts r contents items)
  (hdone : Called s L r contents items f p before behind entries)

include h hcall hdone

/-- No block goes home to the node that the range stands in. -/
theorem home_ne_parent {e : Block × List NodeId} (he : e ∈ handedBack s.forest (s.placedIn r)
    contents (L.gap r.start) (L.wanted entries)) : e.1.home ≠ p := by
  rintro rfl
  have hstart : r.start ∈ s.forest.children e.1.home := by
    rw [hdone.stands]
    simp
  obtain ⟨-, hspan, hinside, -⟩ := h.mem_handedBack hcall he
  by_cases hheld : L.Held e.1.home
  · rw [h.lists.of_held hheld] at hstart
    exact nomatch hstart
  · rw [h.lists.of_not_held hheld, ← hspan] at hstart
    exact h.coherent.not_mem_own_gap (hinside hstart)

/-- An instance that is torn apart loses a range start of its own: the one behind which the wanted
roots stood. -/
theorem exists_lost_start {m m' : NodeId} (hdrops : s.Drops r contents b roots)
    (hm : m ∈ roots) (hwanted : m ∈ L.wanted entries) (hm' : m' ∈ roots)
    (hnot : m' ∉ L.wanted entries) :
    ∃ q ∈ roots, L.held q ≠ [] ∧ q ∉ L.wanted entries := by
  obtain ⟨i, hi, rfl⟩ := h.placed_block hdrops.placed
  have hspan := h.roots_eq ⟨i, hi, rfl⟩
  rw [hdrops.roots_eq, Except.ok.injEq] at hspan
  subst hspan
  obtain ⟨v, hv, hmv⟩ := Layout.mem_wanted.mp hwanted
  have hne : v ≠ (s.instanceAt i).block.home := by
    rintro rfl
    exact hdrops.not_kept ((h.kept_iff hcall hdone ⟨i, hi, rfl⟩).mpr hv)
  obtain ⟨x, rest, hskeleton⟩ := List.exists_cons_of_ne_nil (fun hnil =>
    List.ne_nil_of_mem hmv (h.coherent.span_eq_nil_iff.mpr hnil))
  have hx : x ∈ L.skeleton v := by simp [hskeleton]
  have hxv := h.coherent.mem_span_of_mem_skeleton hx
  have hinside : x ∈ L.span (s.instanceAt i).block.home := by
    rcases h.coherent.overlap hmv hm with hle | hge
    · exact hle.subset hxv
    · exact absurd (Layout.mem_wanted.mpr ⟨v, hv, hge.subset hm'⟩) hnot
  obtain ⟨q, hq, hheld⟩ := h.coherent.exists_held_of_infix hx hinside hne
  refine ⟨q, hq, List.ne_nil_of_mem hheld, fun hqwanted => ?_⟩
  obtain ⟨v', hv', hqv⟩ := Layout.mem_wanted.mp hqwanted
  have hxv' : x ∈ L.span v' :=
    h.coherent.gap_subset_span hqv ((Layout.span_infix_gap hheld).subset hxv)
  obtain rfl := Entry.nest.inj (entries_apart hdone.reconciled.nodup hv hv' hxv hxv')
  exact h.coherent.not_held_within hqv hheld

/-- A lost range start is no sibling of the nodes that the range is given. -/
theorem lost_start_not_mem {q : NodeId} (hq : q ∈ L.gap r.start) (hheld : L.held q ≠ [])
    (hnot : q ∉ L.wanted entries) : q ∉ f.children p := by
  rw [hdone.reconciled.children_eq, if_pos rfl]
  obtain ⟨hstart, hstop, hbefore, hbehind⟩ := hdone.stands.ne_ends h.linked hq
  obtain ⟨r', hr', rfl⟩ := h.held_range hheld
  have hcontent : r'.start ∉ L.content entries := by
    intro hmem
    rcases hdone.reconciled.origin _ hmem with hwanted | ⟨-, htext, -⟩ | hnew
    · rw [hdone.nodes_eq] at hwanted
      exact hnot hwanted
    · rw [h.range_text hr'] at htext
      exact nomatch htext
    · exact absurd (h.range_lt hr').1 (Nat.not_lt.mpr hnew)
  have hhome : r'.start ∉ homecomings (handedBack s.forest (s.placedIn r) contents
      (L.gap r.start) (L.wanted entries)) p := by
    intro hmem
    obtain ⟨e, he, hhome, -⟩ := exists_of_mem_homecomings hmem
    exact h.home_ne_parent hcall hdone he hhome
  simp only [List.mem_append, List.mem_cons, List.mem_filter, not_or]
  exact ⟨⟨fun hmem => hbefore hmem.1, hstart, hcontent, hstop, fun hmem => hbehind hmem.1⟩, hhome⟩

/-- If the roots that are dropped are still together, none of them was torn off. -/
theorem all_or_none (hdrops : s.Drops r contents b roots) (hkept : b.roots f = .ok roots) :
    (∀ n ∈ roots, n ∈ L.wanted entries) ∨ ∀ n ∈ roots, n ∉ L.wanted entries := by
  by_contra hmixed
  simp only [not_or, not_forall, not_not] at hmixed
  obtain ⟨⟨m', hm', hnot⟩, m, hm, hwanted⟩ := hmixed
  obtain ⟨q, hq, hheld, hqnot⟩ := h.exists_lost_start hcall hdone hdrops hm hwanted hm' hnot
  have hne : q ≠ m := by
    rintro rfl
    exact hqnot hwanted
  obtain ⟨q₀, hq₀, hm₀⟩ := siblings_of_roots hdone.reconciled.linked hkept hq hm hne
  have hmp : m ∈ f.children p := by
    obtain ⟨v, hv, hmv⟩ := Layout.mem_wanted.mp hwanted
    have hcontent : m ∈ L.content entries := List.mem_flatMap.mpr ⟨_, hv, hmv⟩
    rw [hdone.reconciled.children_eq, if_pos rfl]
    simp [hcontent]
  obtain rfl := hdone.reconciled.linked.parent_unique hm₀ hmp
  obtain ⟨held, hheld', hinside⟩ := hdrops.inside
  rw [h.items_eq hcall.range, Except.ok.injEq] at hheld'
  subst hheld'
  exact h.lost_start_not_mem hcall hdone (hinside hq) hheld hqnot hq₀

/-- If the roots that are dropped are still together, the last block that took one of them home took
them all. -/
theorem undivided_of_kept (hdrops : s.Drops r contents b roots) (hkept : b.roots f = .ok roots)
    (hnone : ∀ n ∈ roots, n ∉ L.wanted entries) (hne : roots ≠ []) :
    Undivided (handedBack s.forest (s.placedIn r) contents (L.gap r.start) (L.wanted entries))
      roots := by
  obtain ⟨held, hheld, hinside⟩ := hdrops.inside
  rw [h.items_eq hcall.range, Except.ok.injEq] at hheld
  subst hheld
  have hback : (b, roots) ∈ handedBack s.forest (s.placedIn r) contents (L.gap r.start)
      (L.wanted entries) :=
    mem_released.mpr ⟨hdrops.placed, hdrops.roots_eq, hdrops.not_kept, hinside, hnone⟩
  obtain ⟨x, hx⟩ := List.exists_mem_of_ne_nil _ hne
  obtain ⟨front, e, back, hsplit, ⟨m, hme, hm⟩, hlast⟩ := exists_last
    (P := fun e : Block × List NodeId => ∃ n ∈ e.2, n ∈ roots) ⟨_, hback, x, hx, hx⟩
  refine ⟨front, e, back, hsplit, fun m' hm' => ?_,
    fun e' he' n hn hmem => hlast e' he' ⟨n, hn, hmem⟩⟩
  by_contra hout
  have he : e ∈ handedBack s.forest (s.placedIn r) contents (L.gap r.start)
      (L.wanted entries) := by
    rw [hsplit]
    simp
  have hnep := h.home_ne_parent hcall hdone he
  have hmhome : m ∈ f.children e.1.home := by
    rw [hdone.reconciled.children_eq, hsplit]
    exact List.mem_append_right _
      (mem_homecomings_of_last hme fun e' he' hmem => hlast e' he' ⟨m, hmem, hm⟩)
  have hdistinct : m ≠ m' := by
    rintro rfl
    exact hout hme
  obtain ⟨q₀, hm₀, hm₀'⟩ := siblings_of_roots hdone.reconciled.linked hkept hm hm' hdistinct
  obtain rfl := hdone.reconciled.linked.parent_unique hm₀ hmhome
  rw [hdone.reconciled.children_eq, if_neg hnep, List.mem_append] at hm₀'
  rcases hm₀' with hmem | hmem
  · exact hnep (h.linked.parent_unique (List.mem_of_mem_filter hmem)
      (hdone.stands.mem_children (hinside hm')))
  · obtain ⟨e', he', hhome', hmem'⟩ := exists_of_mem_homecomings hmem
    rw [(h.mem_handedBack hcall he').2.1, hhome', ← (h.mem_handedBack hcall he).2.1] at hmem'
    exact hout hmem'

end Keeping

/-- A call keeps the roots of what it drops exactly when it spares them. -/
theorem keeps_iff_spares (h : Nested s L) (hcall : s.Accepts r contents items) :
    (∀ s', Live.replaceContents r contents s = .ok () s' →
      ∀ b roots, s.Drops r contents b roots → b.roots s'.forest = .ok roots) ↔
    s.Spares r contents := by
  obtain ⟨f, p, before, behind, entries, hdone⟩ := h.exists_called hcall
  have hrun := Live.replaceContents_ok hdone.run
  constructor
  · intro hkeeps items' held hitems hheld b roots hdrops
    rw [hcall.accepted, Except.ok.injEq] at hitems
    rw [h.items_eq hcall.range, Except.ok.injEq] at hheld
    subst hitems hheld
    have hkept : b.roots f = .ok roots := hkeeps _ hrun b roots hdrops
    rw [hdone.nodes_eq]
    by_cases hne : roots = []
    · left
      rw [hne]
      exact nofun
    · rcases h.all_or_none hcall hdone hdrops hkept with hall | hnone
      · exact .inl hall
      · exact .inr ⟨hnone, h.undivided_of_kept hcall hdone hdrops hkept hnone hne⟩
  · intro hspares s' hs' b roots hdrops
    obtain ⟨f', entries', hrun', -, -, -, hnested⟩ := h.call hcall hspares
    rw [hrun', EStateM.Result.ok.injEq] at hs'
    obtain ⟨-, rfl⟩ := hs'
    have hblock := h.placed_block hdrops.placed
    have hspan := h.roots_eq hblock
    rw [hdrops.roots_eq, Except.ok.injEq] at hspan
    obtain ⟨held, hheld, hinside⟩ := hdrops.inside
    rw [h.items_eq hcall.range, Except.ok.injEq] at hheld
    subst hheld
    rw [hnested.roots_eq hblock, hspan]
    rw [hspan] at hinside
    rw [Layout.span_place_eq h.coherent fun x hx => Layout.mem_moved.mpr (.inl (hinside hx))]

end Nested

/-! ## Whole runs -/

/-- What a run may do: make and fill instances in any way, and give ranges of instances strings and
instances, as long as no instance is placed inside itself. -/
def Session.Admits (s : Session) : Act → Prop
  | .place r contents => s.HasRange r ∧ s.Offers contents ∧
    ∀ items, Content.allItems s.forest contents = .ok items →
      ∀ n ∈ items.filterMap Item.node?, ¬ s.forest.Above n r.start
  | _ => True

/-- Behind the act every instance can be walked, and what the act drops has the roots it had. -/
def Session.StaysWhole (s : Session) (a : Act) : Prop :=
  (∀ i, i < (a.after s).instances.size →
    ∃ roots, ((a.after s).instanceAt i).block.roots (a.after s).forest = .ok roots) ∧
  ∀ r contents, a = .place r contents → ∀ s', a.run s = .ok () s' →
    ∀ b roots, s.Drops r contents b roots → b.roots s'.forest = .ok roots

/-- The act spares what it drops. -/
def Session.SparesAll (s : Session) (a : Act) : Prop :=
  ∀ r contents, a = .place r contents → s.Spares r contents

/-- Where every act keeps the instances whole they can be walked behind the run. -/
theorem walks_afterActs {s : Session} {acts : List Act} (hne : acts ≠ [])
    (h : Throughout Session.StaysWhole s acts) :
    ∀ i, i < (s.afterActs acts).instances.size →
      ∃ roots, ((s.afterActs acts).instanceAt i).block.roots (s.afterActs acts).forest
        = .ok roots := by
  induction acts generalizing s with
  | nil => exact absurd rfl hne
  | cons a rest ih =>
      obtain ⟨hfirst, hrest⟩ := h
      cases rest with
      | nil => exact hfirst.1
      | cons b rest => exact ih (List.cons_ne_nil b rest) hrest

namespace Nested

variable {s : Session} {L : Layout} {a : Act}

/-- In a nested session every instance can be walked. -/
theorem walks (h : Nested s L) : ∀ i, i < s.instances.size →
    ∃ roots, (s.instanceAt i).block.roots s.forest = .ok roots := fun i hi =>
  ⟨_, h.roots_eq ⟨i, hi, rfl⟩⟩

/-- Acts that place nothing leave a session nested. -/
theorem after_of_not_place (h : Nested s L) (ha : ∀ r contents, a ≠ .place r contents) :
    ∃ L', Nested (a.after s) L' := by
  by_cases hcreate : ∃ t arguments, a = .create t arguments
  · obtain ⟨t, arguments, rfl⟩ := hcreate
    obtain ⟨parts, f, hf, hafter⟩ := Act.after_create h.linked t arguments
    rw [hafter]
    exact ⟨_, h.create hf t arguments⟩
  · obtain ⟨hlinked, halike⟩ := Act.after_alike h.linked
      (fun t arguments heq => hcreate ⟨t, arguments, heq⟩) ha
    exact ⟨L, h.of_alike hlinked halike⟩

/-- An act of a run keeps everything whole exactly when it spares what it drops, and then the
session is nested behind it. -/
theorem act (h : Nested s L) (ha : s.Admits a) :
    (s.StaysWhole a ↔ s.SparesAll a) ∧ (s.SparesAll a → ∃ L', Nested (a.after s) L') := by
  by_cases hplace : ∃ r contents, a = .place r contents
  · obtain ⟨r, contents, rfl⟩ := hplace
    obtain ⟨hrange, hoffers, hinside⟩ := ha
    cases hwanted : r.wanted contents s.forest with
    | error fault =>
        have hrun : Act.run (.place r contents) s = .error fault s :=
          Live.replaceContents_error (reconcile_error hwanted)
        have hafter : Act.after s (.place r contents) = s := Live.after_of_error hrun
        refine ⟨iff_of_true ⟨?_, ?_⟩ ?_, fun _ => ⟨L, by rwa [hafter]⟩⟩
        · rw [hafter]
          exact h.walks
        · intro r' contents' _ s' hs'
          rw [hrun] at hs'
          exact nomatch hs'
        · intro r' contents' heq items held hitems
          cases heq
          rw [hwanted] at hitems
          exact nomatch hitems
    | ok items =>
        have hcall : s.Accepts r contents items := by
          refine ⟨hrange, hoffers, hwanted, fun n hn p hp => ?_⟩
          rintro rfl
          exact hinside items (wanted_eq_ok_iff.mp hwanted).1 n hn
            (.single (h.linked.mem_children_iff.mp hp))
        have hnested : s.Spares r contents → ∃ L', Nested (Act.after s (.place r contents)) L' := by
          intro hspares
          obtain ⟨f, entries, hrun, -, -, -, hnext⟩ := h.call hcall hspares
          rw [show Act.after s (.place r contents) = _ from Live.after_of_ok hrun]
          exact ⟨_, hnext⟩
        refine ⟨⟨?_, ?_⟩, fun hspares => hnested (hspares r contents rfl)⟩
        · rintro ⟨-, hkeeps⟩ r' contents' heq
          cases heq
          exact (h.keeps_iff_spares hcall).mp (hkeeps r contents rfl)
        · intro hspares
          have hspares' := hspares r contents rfl
          obtain ⟨L', hnext⟩ := hnested hspares'
          refine ⟨hnext.walks, fun r' contents' heq => ?_⟩
          cases heq
          exact (h.keeps_iff_spares hcall).mpr hspares'
  · have hnot : ∀ r contents, a ≠ .place r contents := fun r contents heq =>
      hplace ⟨r, contents, heq⟩
    obtain ⟨L', hnext⟩ := h.after_of_not_place hnot
    refine ⟨iff_of_true ⟨hnext.walks, ?_⟩ ?_, fun _ => ⟨L', hnext⟩⟩
    · exact fun r contents heq => absurd heq (hnot r contents)
    · exact fun r contents heq => absurd heq (hnot r contents)

end Nested

/-- Throughout a run every instance can be walked and every dropped instance keeps its roots exactly
when every act of the run spares what it drops. -/
theorem staysWhole_iff_sparesAll {s : Session} {calls : List Call} (hs : s.Blank)
    (hcalls : Throughout Session.Admits s (s.actsOf calls)) :
    Throughout Session.StaysWhole s (s.actsOf calls) ↔
      Throughout Session.SparesAll s (s.actsOf calls) := by
  have hrun : ∀ (acts : List Act) (s : Session) (L : Layout), Nested s L →
      Throughout Session.Admits s acts →
      (Throughout Session.StaysWhole s acts ↔ Throughout Session.SparesAll s acts) := by
    intro acts
    induction acts with
    | nil => exact fun _ _ _ _ => Iff.rfl
    | cons a rest ih =>
        intro s L h hadmits
        obtain ⟨hiff, hnext⟩ := h.act hadmits.1
        constructor
        · rintro ⟨hfirst, hrest⟩
          have hspares := hiff.mp hfirst
          obtain ⟨L', hnested⟩ := hnext hspares
          exact ⟨hspares, (ih _ L' hnested hadmits.2).mp hrest⟩
        · rintro ⟨hspares, hrest⟩
          obtain ⟨L', hnested⟩ := hnext hspares
          exact ⟨hiff.mpr hspares, (ih _ L' hnested hadmits.2).mpr hrest⟩
  exact hrun _ s _ (nested_of_blank hs) hcalls

/-! ## A run that tears an instance apart -/

/-- The templates of a wrapper that is nothing but a range, of a list around a range, and of an
item. -/
def wrapperTemplates : Session :=
  let hole := Tree.element { name := "span", attributes := [("data-dtpp-nodes", "")] } []
  .ofTemplates
    [{ placeholders := 1, dialect := .html, markers := {}
       markup := "<span data-dtpp-nodes=\"\"></span>", trees := [hole] },
     { placeholders := 1, dialect := .html, markers := {}
       markup := "<ul><span data-dtpp-nodes=\"\"></span></ul>"
       trees := [.element { name := "ul" } [hole]] },
     { placeholders := 0, dialect := .html, markers := {}, markup := "<li>x</li>"
       trees := [.element { name := "li" } [.leaf (.text "x")]] }]

/-- The wrapper is given the item, the list is given the wrapper, and then the list is given the
item alone. -/
def unwrapping : List Call :=
  let wrapper : Block := ⟨0, 8, some (10, 11)⟩
  let item : Block := ⟨1, 12, some (13, 13)⟩
  [.instantiate 0 none, .instantiate 2 none, .instantiate 1 none,
    .replace ⟨10, 11⟩ [.block item], .replace ⟨18, 19⟩ [.block wrapper],
    .replace ⟨18, 19⟩ [.block item]]

theorem blank_wrapperTemplates : wrapperTemplates.Blank := Session.blank_ofTemplates _

theorem admits_unwrapping :
    Throughout Session.Admits wrapperTemplates (wrapperTemplates.actsOf unwrapping) := by
  refine ⟨trivial, trivial, trivial, ⟨⟨0, by decide +kernel⟩, ?_, ?_⟩,
    ⟨⟨2, by decide +kernel⟩, ?_, ?_⟩, ⟨⟨2, by decide +kernel⟩, ?_, ?_⟩, trivial⟩
  · intro c hc
    obtain rfl := List.mem_singleton.mp hc
    exact .inr (.inl ⟨1, by decide +kernel⟩)
  · intro items hitems n hn
    obtain rfl : items = [.node 13] := Except.ok.inj (hitems.symm.trans (by decide +kernel))
    obtain rfl : n = 13 := List.mem_singleton.mp hn
    exact not_above_of_parent? (p := 8) (by decide +kernel) (by decide)
      (not_above_of_alone (by decide +kernel))
  · intro c hc
    obtain rfl := List.mem_singleton.mp hc
    exact .inr (.inl ⟨0, by decide +kernel⟩)
  · intro items hitems n hn
    obtain rfl : items = [.node 10, .node 13, .node 11] :=
      Except.ok.inj (hitems.symm.trans (by decide +kernel))
    have hroots : ∀ n ∈ [10, 13, 11], n ≠ 16 ∧ n ≠ 15 := by decide
    exact not_above_of_parent? (p := 16) (by decide +kernel) (hroots n hn).1
      (not_above_of_parent? (p := 15) (by decide +kernel) (hroots n hn).2
        (not_above_of_alone (by decide +kernel)))
  · intro c hc
    obtain rfl := List.mem_singleton.mp hc
    exact .inr (.inl ⟨1, by decide +kernel⟩)
  · intro items hitems n hn
    obtain rfl : items = [.node 13] := Except.ok.inj (hitems.symm.trans (by decide +kernel))
    obtain rfl : n = 13 := List.mem_singleton.mp hn
    exact not_above_of_parent? (p := 16) (by decide +kernel) (by decide)
      (not_above_of_parent? (p := 15) (by decide +kernel) (by decide)
        (not_above_of_alone (by decide +kernel)))

/-- Behind this run the wrapper cannot be walked any more: both of its ends have been taken out, and
neither has a parent. -/
theorem not_staysWhole_unwrapping :
    ¬ Throughout Session.StaysWhole wrapperTemplates (wrapperTemplates.actsOf unwrapping) := by
  intro hwhole
  have hacts : wrapperTemplates.actsOf unwrapping ≠ [] := by decide +kernel
  have hsize : 0 < (wrapperTemplates.afterActs (wrapperTemplates.actsOf unwrapping)).instances.size
      := by decide +kernel
  obtain ⟨roots, hroots⟩ := walks_afterActs hacts hwhole 0 hsize
  have happart : ((wrapperTemplates.afterActs (wrapperTemplates.actsOf unwrapping)).instanceAt
      0).block.roots (wrapperTemplates.afterActs (wrapperTemplates.actsOf unwrapping)).forest
      = .error .rootsApart := by
    decide +kernel
  rw [happart] at hroots
  exact nomatch hroots

/-- The run does not spare what it drops. -/
theorem staysWhole_iff_sparesAll_unwrapping :
    (wrapperTemplates.Blank ∧
      Throughout Session.Admits wrapperTemplates (wrapperTemplates.actsOf unwrapping)) ∧
    (Throughout Session.StaysWhole wrapperTemplates (wrapperTemplates.actsOf unwrapping) ↔
      Throughout Session.SparesAll wrapperTemplates (wrapperTemplates.actsOf unwrapping)) :=
  ⟨⟨blank_wrapperTemplates, admits_unwrapping⟩,
    staysWhole_iff_sparesAll blank_wrapperTemplates admits_unwrapping⟩

end LiveTemplate
