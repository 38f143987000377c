import LiveTemplate.Proofs.Nesting.Nested
import Mathlib.Data.List.Pairwise

/-!
# Calls on nested instances

A range of a nested session is given strings and instances.  `Nested.reconciled` says what the
forest is then, with the new content written as entries of a layout.

The session stays nested if the call spares the instances it drops (`Session.Spares`): an instance
that is dropped while it stands in the range must not have some of its roots among the new contents
and others not, and the instances that go home must do so in an order that leaves it together.  Then
`Nested.call` gives the new layout, in which every dropped instance is at home with the roots it
had.
-/

namespace LiveTemplate

set_option autoImplicit false

open Forest NodeRange

/-! ## What a call is given -/

/-- Contents made of strings and instances, apart from what is refused anyway. -/
def Session.Offers (s : Session) (contents : List Content) : Prop :=
  ∀ c ∈ contents, (∃ t, c = .text t) ∨
    (∃ i, i < s.instances.size ∧ c = .block (s.instanceAt i).block) ∨ ∃ fault, c = .refused fault

/-- A call that is accepted: a range of an instance is given strings and instances that may stand
there and do not hold the range. -/
structure Session.Accepts (s : Session) (r : NodeRange) (contents : List Content)
    (items : List Item) : Prop where
  range : s.HasRange r
  offers : s.Offers contents
  accepted : r.wanted contents s.forest = .ok items
  not_around : ∀ n ∈ items.filterMap Item.node?, ∀ p, r.start ∈ s.forest.children p → n ≠ p

/-- A call drops a block: the last contents held it, the new ones do not, and it stands in the range
as a whole. -/
structure Session.Drops (s : Session) (r : NodeRange) (contents : List Content) (b : Block)
    (roots : List NodeId) : Prop where
  placed : b ∈ s.placedIn r
  not_kept : b.owner ∉ (contents.filterMap Content.block?).map (·.owner)
  roots_eq : b.roots s.forest = .ok roots
  inside : ∃ held, r.items s.forest = .ok held ∧ roots ⊆ held

/-- A call spares the blocks it drops: of each, all roots are wanted or none is, and in the latter
case the blocks that go home leave its roots together. -/
def Session.Spares (s : Session) (r : NodeRange) (contents : List Content) : Prop :=
  ∀ items held, r.wanted contents s.forest = .ok items → r.items s.forest = .ok held →
    ∀ b roots, s.Drops r contents b roots →
      (∀ n ∈ roots, n ∈ items.filterMap Item.node?) ∨
      (∀ n ∈ roots, n ∉ items.filterMap Item.node?) ∧
        Undivided (handedBack s.forest (s.placedIn r) contents held
          (items.filterMap Item.node?)) roots

/-! ## Contents as entries -/

/-- An entry shows a content: a text with the characters of a string, or the instance itself. -/
def Shows (f : Forest) : Content → Entry → Prop
  | .text t, .text n => f.text? n = some t
  | .block b, .nest home => b.home = home
  | _, _ => False

/-- The items of contents, with the roots of the instances found in a layout. -/
def Content.itemsIn (L : Layout) : Content → List Item
  | .text t => [.text t]
  | .node n => [.node n]
  | .block b => (L.span b.home).map .node
  | .refused _ => []

section Lists

variable {α β : Type} {R : α → β → Prop} {as : List α} {bs : List β}

theorem forall₂_exists_right (h : List.Forall₂ R as bs) {a : α} (ha : a ∈ as) :
    ∃ b ∈ bs, R a b := by
  induction h with
  | nil => exact nomatch ha
  | cons hab _ ih =>
      rcases List.mem_cons.mp ha with rfl | ha
      · exact ⟨_, by simp, hab⟩
      · obtain ⟨b, hb, hr⟩ := ih ha
        exact ⟨b, by simp [hb], hr⟩

theorem forall₂_exists_left (h : List.Forall₂ R as bs) {b : β} (hb : b ∈ bs) :
    ∃ a ∈ as, R a b := by
  induction h with
  | nil => exact nomatch hb
  | cons hab _ ih =>
      rcases List.mem_cons.mp hb with rfl | hb
      · exact ⟨_, by simp, hab⟩
      · obtain ⟨a, ha, hr⟩ := ih hb
        exact ⟨a, by simp [ha], hr⟩

/-- If some entries of a list have a property, there is a last one. -/
theorem exists_last {α : Type} {P : α → Prop} {l : List α} (h : ∃ a ∈ l, P a) :
    ∃ front a back, l = front ++ a :: back ∧ P a ∧ ∀ a' ∈ back, ¬ P a' := by
  induction l with
  | nil =>
      obtain ⟨a, ha, -⟩ := h
      exact nomatch ha
  | cons a l ih =>
      by_cases hl : ∃ a ∈ l, P a
      · obtain ⟨front, a', back, rfl, ha', hback⟩ := ih hl
        exact ⟨a :: front, a', back, rfl, ha', hback⟩
      · obtain ⟨a', ha', hP⟩ := h
        rcases List.mem_cons.mp ha' with rfl | hmem
        · exact ⟨[], a', l, rfl, hP, fun a'' ha'' hP'' => hl ⟨a'', ha'', hP''⟩⟩
        · exact absurd ⟨a', hmem, hP⟩ hl

end Lists

/-- The nodes of a block serve its items. -/
theorem serves_nodes {f : Forest} {ns target : List NodeId} {items : List Item} :
    List.Forall₂ (Serves f) (ns.map .node ++ items) target →
      ∃ rest, target = ns ++ rest ∧ List.Forall₂ (Serves f) items rest := by
  induction ns generalizing target with
  | nil => exact fun h => ⟨target, rfl, h⟩
  | cons n ns ih =>
      intro h
      cases h with
      | cons hn hrest =>
          obtain ⟨rest, rfl, hitems⟩ := ih hrest
          obtain rfl : _ = n := hn
          exact ⟨rest, rfl, hitems⟩

namespace Nested

variable {s : Session} {L : Layout} {r : NodeRange} {contents : List Content}
  {items : List Item} {f : Forest} {entries : List Entry} {x : NodeId}

/-- A block that is offered is that of an instance. -/
theorem offers_block {b : Block} (hoffers : s.Offers contents) (hb : .block b ∈ contents) :
    ∃ i, i < s.instances.size ∧ b = (s.instanceAt i).block := by
  rcases hoffers _ hb with ⟨t, htext⟩ | ⟨i, hi, hblock⟩ | ⟨fault, hfault⟩
  · exact nomatch htext
  · exact ⟨i, hi, Content.block.inj hblock⟩
  · exact nomatch hfault

/-- The items of accepted contents are found in the layout. -/
theorem allItems_eq (h : Nested s L) (hoffers : s.Offers contents)
    (hitems : Content.allItems s.forest contents = .ok items) :
    items = contents.flatMap (Content.itemsIn L) ∧ ∀ fault, .refused fault ∉ contents := by
  induction contents generalizing items with
  | nil =>
      cases hitems
      exact ⟨rfl, nofun⟩
  | cons c rest ih =>
      have hrest : s.Offers rest := fun c hc => hoffers c (by simp [hc])
      obtain ⟨first, others, hfirst, hall, rfl⟩ := Content.allItems_cons_eq_ok_iff.mp hitems
      obtain ⟨rfl, hnone⟩ := ih hrest hall
      rcases hoffers c (by simp) with ⟨t, rfl⟩ | ⟨i, hi, rfl⟩ | ⟨fault, rfl⟩
      · cases hfirst
        exact ⟨rfl, by simpa using hnone⟩
      · obtain ⟨ns, hroots, rfl⟩ := Content.items_block_eq_ok_iff.mp hfirst
        obtain rfl := Except.ok.inj ((h.roots_eq ⟨i, hi, rfl⟩).symm.trans hroots)
        exact ⟨rfl, by simpa using hnone⟩
      · exact nomatch hfirst

/-- Strings and instances have items. -/
theorem allItems_ok (h : Nested s L) (hoffers : s.Offers contents)
    (hnone : ∀ fault, .refused fault ∉ contents) :
    Content.allItems s.forest contents = .ok (contents.flatMap (Content.itemsIn L)) := by
  induction contents with
  | nil => rfl
  | cons c rest ih =>
      have hfirst : c.items s.forest = .ok (c.itemsIn L) := by
        rcases hoffers c (by simp) with ⟨t, rfl⟩ | ⟨i, hi, rfl⟩ | ⟨fault, rfl⟩
        · rfl
        · exact Content.items_block_eq_ok_iff.mpr ⟨_, h.roots_eq ⟨i, hi, rfl⟩, rfl⟩
        · exact absurd (by simp) (hnone fault)
      have hrest := ih (fun c hc => hoffers c (by simp [hc])) fun fault hmem =>
        hnone fault (by simp [hmem])
      exact Content.allItems_cons_eq_ok_iff.mpr ⟨_, _, hfirst, hrest, rfl⟩

/-- The nodes among the items of strings and instances are those of the instances. -/
theorem nodes_eq_blocks (hoffers : s.Offers contents) :
    (contents.flatMap (Content.itemsIn L)).filterMap Item.node?
      = (contents.filterMap Content.block?).flatMap fun b => L.span b.home := by
  induction contents with
  | nil => rfl
  | cons c rest ih =>
      rw [List.flatMap_cons, List.filterMap_append, ih fun c hc => hoffers c (by simp [hc])]
      rcases hoffers c (by simp) with ⟨t, rfl⟩ | ⟨i, -, rfl⟩ | ⟨fault, rfl⟩
      · rfl
      · show ((L.span _).map Item.node).filterMap Item.node? ++ _ = _
        rw [List.filterMap_map]
        exact congrArg (· ++ _) List.filterMap_some
      · rfl

/-- The nodes that serve the items of contents are those of entries that show the contents. -/
theorem exists_entries {target : List NodeId} (hoffers : s.Offers contents)
    (hnone : ∀ fault, .refused fault ∉ contents)
    (hserves : List.Forall₂ (Serves f) (contents.flatMap (Content.itemsIn L)) target) :
    ∃ entries, List.Forall₂ (Shows f) contents entries ∧ target = L.content entries := by
  induction contents generalizing target with
  | nil =>
      cases hserves
      exact ⟨[], .nil, rfl⟩
  | cons c rest ih =>
      have hrest : s.Offers rest := fun c hc => hoffers c (by simp [hc])
      have hnoneRest : ∀ fault, .refused fault ∉ rest := fun fault hmem =>
        hnone fault (by simp [hmem])
      rw [List.flatMap_cons] at hserves
      rcases hoffers c (by simp) with ⟨t, rfl⟩ | ⟨i, -, rfl⟩ | ⟨fault, rfl⟩
      · cases hserves with
        | cons htext hothers =>
            obtain ⟨entries, hshows, rfl⟩ := ih hrest hnoneRest hothers
            exact ⟨.text _ :: entries, .cons htext hshows, rfl⟩
      · obtain ⟨others, rfl, hothers⟩ := serves_nodes hserves
        obtain ⟨entries, hshows, rfl⟩ := ih hrest hnoneRest hothers
        exact ⟨.nest _ :: entries, .cons rfl hshows, rfl⟩
      · exact absurd (by simp) (hnone fault)

/-- The nodes that are wanted are those of the instances among the entries. -/
theorem nodes_eq_wanted (hshows : List.Forall₂ (Shows f) contents entries) :
    (contents.flatMap (Content.itemsIn L)).filterMap Item.node? = L.wanted entries := by
  induction hshows with
  | nil => rfl
  | @cons c e contents entries hshow _ ih =>
      have hone : (Content.itemsIn L c).filterMap Item.node? = L.wanted [e] := by
        cases c <;> cases e <;> first | exact hshow.elim | skip
        · rfl
        · obtain rfl := hshow
          show ((L.span _).map Item.node).filterMap Item.node? = L.span _ ++ []
          rw [List.filterMap_map, List.append_nil]
          exact List.filterMap_some
      rw [List.flatMap_cons, List.filterMap_append, ih, hone]
      unfold Layout.wanted
      rw [List.flatMap_cons, List.flatMap_cons, List.flatMap_nil, List.append_nil]

/-- Entries with different nodes are apart. -/
theorem entries_apart {e e' : Entry} (hnodup : (L.content entries).Nodup) (he : e ∈ entries)
    (he' : e' ∈ entries) (hx : x ∈ e.nodes L.span) (hx' : x ∈ e'.nodes L.span) : e = e' := by
  by_contra hne
  have hpairs := (List.nodup_flatMap.mp hnodup).2
  have : Std.Symm (Function.onFun List.Disjoint (Entry.nodes L.span)) :=
    ⟨fun _ _ hdisjoint => List.Disjoint.symm hdisjoint⟩
  exact hpairs.forall he he' hne hx hx'

/-! ## The forest behind a call -/

/-- What an accepted call does to the forest, with the new content written as entries. -/
structure Called (s : Session) (L : Layout) (r : NodeRange) (contents : List Content)
    (items : List Item) (f : Forest) (p : NodeId) (before behind : List NodeId)
    (entries : List Entry) : Prop where
  run : r.reconcile (s.placedIn r) contents s.forest
    = .ok (contents.filterMap Content.block?) f
  stands : r.Stands s.forest p before (L.gap r.start) behind
  reconciled : Reconciled r s.forest f p before (L.gap r.start) behind items
    (handedBack s.forest (s.placedIn r) contents (L.gap r.start) (L.wanted entries))
    (L.content entries)
  shows : List.Forall₂ (Shows f) contents entries
  nodes_eq : items.filterMap Item.node? = L.wanted entries

/-- An accepted call succeeds. -/
theorem exists_called (h : Nested s L) (hcall : s.Accepts r contents items) :
    ∃ f p before behind entries, Called s L r contents items f p before behind entries := by
  obtain ⟨p, before, behind, hstands⟩ := h.stands hcall.range
  have hall := (wanted_eq_ok_iff.mp hcall.accepted).1
  obtain ⟨hitems, hnone⟩ := h.allItems_eq hcall.offers hall
  have hnodes : ∀ n ∈ items.filterMap Item.node?,
      n ≠ p ∧ n < s.forest.nextId ∧ s.forest.isFragment n = false := by
    intro n hn
    refine ⟨hcall.not_around n hn p (by rw [hstands]; simp), ?_⟩
    obtain ⟨item, hitem, hnode⟩ := List.mem_filterMap.mp hn
    cases item with
    | text t => exact nomatch hnode
    | node m =>
        obtain rfl : m = n := Option.some.inj hnode
        rw [hitems, List.mem_flatMap] at hitem
        obtain ⟨c, hc, hmem⟩ := hitem
        rcases hcall.offers c hc with ⟨t, rfl⟩ | ⟨i, -, rfl⟩ | ⟨fault, rfl⟩
        · exact nomatch List.mem_singleton.mp hmem
        · obtain ⟨k, hk, hkm⟩ := List.mem_map.mp hmem
          cases hkm
          exact ⟨h.lt_nextId hk, h.not_isFragment hk⟩
        · exact nomatch hmem
  have hplaced : ∀ b ∈ s.placedIn r, s.forest.isFragment b.home = true := by
    intro b hb
    obtain ⟨i, hi, rfl⟩ := h.placed_block hb
    exact h.block_home hi
  obtain ⟨target, f, hrun, hdone⟩ :=
    reconcile_ok h.linked hstands hcall.accepted hnodes hplaced
  have hserves := hdone.serves
  rw [hitems] at hserves
  obtain ⟨entries, hshows, rfl⟩ := exists_entries hcall.offers hnone hserves
  have hwanted : items.filterMap Item.node? = L.wanted entries := by
    rw [hitems, nodes_eq_wanted hshows]
  rw [hwanted] at hdone
  exact ⟨f, p, before, behind, entries, hrun, hstands, hdone, hshows, hwanted⟩

section Call

variable {p : NodeId} {before behind : List NodeId} (h : Nested s L)
  (hcall : s.Accepts r contents items)
  (hdone : Called s L r contents items f p before behind entries)

include hcall hdone

/-- The instances among the entries are those that are given. -/
theorem nest_mem_iff {home : NodeId} : .nest home ∈ entries ↔
    ∃ i, i < s.instances.size ∧ .block (s.instanceAt i).block ∈ contents ∧
      (s.instanceAt i).block.home = home := by
  constructor
  · intro hmem
    obtain ⟨c, hc, hshow⟩ := forall₂_exists_left hdone.shows hmem
    rcases hcall.offers c hc with ⟨t, rfl⟩ | ⟨i, hi, rfl⟩ | ⟨fault, rfl⟩
    · exact hshow.elim
    · exact ⟨i, hi, hc, hshow⟩
    · exact hshow.elim
  · rintro ⟨i, hi, hc, rfl⟩
    obtain ⟨e, he, hshow⟩ := forall₂_exists_right hdone.shows hc
    cases e with
    | text n => exact hshow.elim
    | nest home =>
        obtain rfl := hshow
        exact he

/-- The range start is not one of the nodes that are wanted. -/
theorem start_not_mem_span {v : NodeId} (hv : .nest v ∈ entries) :
    r.start ∉ L.span v ∧ r.stop ∉ L.span v := by
  have hends := (wanted_eq_ok_iff.mp hcall.accepted).2.2
  rw [hdone.nodes_eq] at hends
  exact ⟨fun hmem => (hends _ (Layout.mem_wanted.mpr ⟨v, hv, hmem⟩)).1 rfl,
    fun hmem => (hends _ (Layout.mem_wanted.mpr ⟨v, hv, hmem⟩)).2 rfl⟩

include h

/-- A block is kept exactly when its instance is among the entries. -/
theorem kept_iff {b : Block} (hb : ∃ i, i < s.instances.size ∧ b = (s.instanceAt i).block) :
    b.owner ∈ (contents.filterMap Content.block?).map (·.owner) ↔ .nest b.home ∈ entries := by
  obtain ⟨j, hj, rfl⟩ := hb
  rw [nest_mem_iff hcall hdone, List.mem_map]
  constructor
  · rintro ⟨b, hmem, howner⟩
    have hc := Content.mem_blocks.mp hmem
    obtain ⟨i, hi, rfl⟩ := offers_block hcall.offers hc
    rw [h.block_owner hi, h.block_owner hj] at howner
    subst howner
    exact ⟨i, hi, hc, rfl⟩
  · rintro ⟨i, hi, hc, hhome⟩
    obtain rfl := h.home_unique hi hj hhome
    exact ⟨_, Content.mem_blocks.mpr hc, rfl⟩

/-- What the call drops are the instances that the range holds and is not given again, at least. -/
theorem drops_of_layout {home : NodeId} (hdrops : L.Drops r.start entries home) :
    ∃ i, i < s.instances.size ∧ (s.instanceAt i).block.home = home ∧
      s.Drops r contents (s.instanceAt i).block (L.span home) := by
  obtain ⟨b, hb, rfl⟩ := h.held_placed hcall.range hdrops.1
  obtain ⟨i, hi, rfl⟩ := h.placed_block hb
  refine ⟨i, hi, rfl, hb, ?_, h.roots_eq ⟨i, hi, rfl⟩, _, h.items_eq hcall.range, ?_⟩
  · rw [h.kept_iff hcall hdone ⟨i, hi, rfl⟩]
    exact hdrops.2
  · exact (Layout.span_infix_gap hdrops.1).subset

/-- A spared instance that the range holds and drops has no root that is wanted. -/
theorem not_wanted_of_drops (hspares : s.Spares r contents) {home : NodeId}
    (hdrops : L.Drops r.start entries home) : ∀ n ∈ L.span home, n ∉ L.wanted entries := by
  obtain ⟨i, hi, rfl, hsession⟩ := h.drops_of_layout hcall hdone hdrops
  rcases hspares items _ hcall.accepted (h.items_eq hcall.range) _ _ hsession with hall | hnone
  · rw [hdone.nodes_eq] at hall
    intro n hn
    obtain ⟨x, rest, hskeleton⟩ := List.exists_cons_of_ne_nil (fun hnil =>
      List.ne_nil_of_mem hn (h.coherent.span_eq_nil_iff.mpr hnil))
    have hx : x ∈ L.skeleton (s.instanceAt i).block.home := by simp [hskeleton]
    obtain ⟨v, hv, hspan⟩ :=
      Layout.mem_wanted.mp (hall x (h.coherent.mem_span_of_mem_skeleton hx))
    have hne : (s.instanceAt i).block.home ≠ v := by
      rintro rfl
      exact hdrops.2 hv
    obtain ⟨q, hq, hheld⟩ := h.coherent.exists_held_of_infix hx hspan hne
    obtain rfl := h.coherent.nest_once hheld hdrops.1
    exact absurd hq (start_not_mem_span hcall hdone hv).1
  · rw [hdone.nodes_eq] at hnone
    exact hnone.1

/-! ## Blocks that go home -/

omit hdone in
/-- What goes home are blocks with the spans of their instances. -/
theorem mem_handedBack {e : Block × List NodeId} (he : e ∈ handedBack s.forest (s.placedIn r)
    contents (L.gap r.start) (L.wanted entries)) :
    s.Drops r contents e.1 e.2 ∧ e.2 = L.span e.1.home ∧ e.2 ⊆ L.gap r.start ∧
      ∀ n ∈ e.2, n ∉ L.wanted entries := by
  obtain ⟨hplaced, hroots, hkept, hinside, hwanted⟩ := mem_released.mp he
  refine ⟨⟨hplaced, hkept, hroots, _, h.items_eq hcall.range, hinside⟩, ?_, hinside, hwanted⟩
  have hspan := h.roots_eq (h.placed_block hplaced)
  rw [hroots] at hspan
  exact Except.ok.inj hspan

/-- Every instance that the range holds and drops goes home. -/
theorem mem_handedBack_of_drops (hspares : s.Spares r contents) {home : NodeId}
    (hdrops : L.Drops r.start entries home) :
    ∃ e ∈ handedBack s.forest (s.placedIn r) contents (L.gap r.start) (L.wanted entries),
      e.1.home = home := by
  obtain ⟨i, hi, hhome, hsession⟩ := h.drops_of_layout hcall hdone hdrops
  refine ⟨((s.instanceAt i).block, L.span home), mem_released.mpr ?_, hhome⟩
  exact ⟨hsession.placed, hsession.roots_eq, hsession.not_kept,
    (Layout.span_infix_gap hdrops.1).subset, h.not_wanted_of_drops hcall hdone hspares hdrops⟩

theorem handsBack (hspares : s.Spares r contents) : L.HandsBack r.start entries
    (handedBack s.forest (s.placedIn r) contents (L.gap r.start) (L.wanted entries)) where
  span_eq := fun e he => (h.mem_handedBack hcall he).2.1
  inside := fun e he => (h.mem_handedBack hcall he).2.2.1
  not_wanted := fun e he => (h.mem_handedBack hcall he).2.2.2
  dropped := fun _ hdrops => h.mem_handedBack_of_drops hcall hdone hspares hdrops
  undivided := by
    intro e he hne
    obtain ⟨hdrops, -, -, hwanted⟩ := h.mem_handedBack hcall he
    obtain ⟨x, hx⟩ := List.exists_mem_of_ne_nil _ hne
    rcases hspares items _ hcall.accepted (h.items_eq hcall.range) _ _ hdrops with hall | hnone
    · rw [hdone.nodes_eq] at hall
      exact absurd (hall x hx) (hwanted x hx)
    · rw [hdone.nodes_eq] at hnone
      exact hnone.2

/-! ## The new layout -/

/-- A text among the new entries is one of the range's own or new. -/
theorem text_origin (hspares : s.Spares r contents) (hx : .text x ∈ entries) :
    .text x ∈ L.held r.start ∨ s.forest.nextId ≤ x := by
  have hmem : x ∈ L.content entries :=
    List.mem_flatMap.mpr ⟨_, hx, List.mem_singleton.mpr rfl⟩
  rcases hdone.reconciled.origin x hmem with hwanted | ⟨hgap, -, hnot, hback⟩ | hnew
  · rw [hdone.nodes_eq] at hwanted
    obtain ⟨v, hv, hspan⟩ := Layout.mem_wanted.mp hwanted
    exact absurd (entries_apart hdone.reconciled.nodup hx hv (List.mem_singleton.mpr rfl) hspan)
      nofun
  · left
    rw [hdone.nodes_eq] at hnot
    rcases Layout.mem_gap.mp hgap with htext | ⟨home, hheld, hspan⟩
    · exact htext
    · by_cases hkept : .nest home ∈ entries
      · exact absurd (Layout.mem_wanted.mpr ⟨home, hkept, hspan⟩) hnot
      · obtain ⟨e, he, rfl⟩ := h.mem_handedBack_of_drops hcall hdone hspares ⟨hheld, hkept⟩
        refine absurd (List.mem_flatMap.mpr ⟨e, he, ?_⟩) hback
        rwa [(h.mem_handedBack hcall he).2.1]
  · exact .inr hnew

theorem placeable (hspares : s.Spares r contents) : L.Placeable r.start entries where
  start := by
    obtain ⟨n, front, back, hskeleton⟩ := h.range_skeleton hcall.range
    exact ⟨n, front, r.stop, back, hskeleton⟩
  outside := fun hv => (start_not_mem_span hcall hdone hv).1
  apart := by
    intro v v' x hv hv' hx hx'
    exact Entry.nest.inj (entries_apart hdone.reconciled.nodup hv hv' hx hx')
  whole := by
    intro home v x hheld hkept hv hx hspan
    exact h.not_wanted_of_drops hcall hdone hspares ⟨hheld, hkept⟩ x hx
      (Layout.mem_wanted.mpr ⟨v, hv, hspan⟩)
  text_own := by
    intro x m hx hm
    rcases h.text_origin hcall hdone hspares hx with hown | hnew
    · exact h.coherent.text_once hm hown
    · exact absurd (h.text_lt hm) (Nat.not_lt.mpr hnew)
  text_not_skeleton := by
    intro x n hx hskeleton
    rcases h.text_origin hcall hdone hspares hx with hown | hnew
    · exact h.coherent.text_not_skeleton hown hskeleton
    · exact absurd (h.lt_nextId (h.coherent.mem_span_of_mem_skeleton hskeleton))
        (Nat.not_lt.mpr hnew)
  text_bare := by
    intro x hx
    rcases h.text_origin hcall hdone hspares hx with hown | hnew
    · exact h.coherent.text_bare hown
    · rw [← h.coherent.span_eq_nil_iff]
      exact h.span_eq_nil hnew

/-- Outside the range, the nodes that leave a list of children are those that move. -/
theorem filter_eq_resettle (hspares : s.Spares r contents) {l : List NodeId} {q : NodeId}
    (hl : l ⊆ s.forest.children q) (hout : ∀ n ∈ l, n ≠ r.start ∧ n ∉ L.gap r.start) :
    l.filter (· ∉ L.content entries) = l.flatMap (L.resettle r.start entries) := by
  have hiff : ∀ n ∈ l, n ∈ L.content entries ↔ n ∈ L.moved r.start entries := by
    intro n hn
    rw [Layout.mem_moved]
    constructor
    · intro hmem
      obtain ⟨e, he, hne⟩ := List.mem_flatMap.mp hmem
      cases e with
      | text x =>
          obtain rfl : n = x := List.mem_singleton.mp hne
          rcases h.text_origin hcall hdone hspares he with hown | hnew
          · exact absurd (Layout.mem_gap.mpr (.inl hown)) (hout n hn).2
          · exact absurd (h.linked.lt_nextId (hl hn)) (Nat.not_lt.mpr hnew)
      | nest v => exact .inr ⟨v, he, hne⟩
    · rintro (hgap | ⟨v, hv, hspan⟩)
      · exact absurd hgap (hout n hn).2
      · exact List.mem_flatMap.mpr ⟨_, hv, hspan⟩
  clear hl
  induction l with
  | nil => rfl
  | cons n l ih =>
      have hrest := ih (fun m hm => hout m (by simp [hm])) fun m hm => hiff m (by simp [hm])
      rw [List.flatMap_cons, ← hrest]
      unfold Layout.resettle
      rw [if_neg (hout n (by simp)).1]
      by_cases hmem : n ∈ L.content entries
      · rw [List.filter_cons_of_neg (by simpa using hmem), if_pos ((hiff n (by simp)).mp hmem)]
        rfl
      · rw [List.filter_cons_of_pos (by simpa using hmem),
          if_neg fun hm => hmem ((hiff n (by simp)).mpr hm)]
        rfl

/-- The lists of children are resettled, and the blocks that go home are put behind them. -/
theorem children_eq (hspares : s.Spares r contents) (q : NodeId) : f.children q =
    (s.forest.children q).flatMap (L.resettle r.start entries) ++
      homecomings (handedBack s.forest (s.placedIn r) contents (L.gap r.start)
        (L.wanted entries)) q := by
  have hstands := hdone.stands
  rw [hdone.reconciled.children_eq]
  congr 1
  by_cases hq : q = p
  · rw [if_pos hq, hq]
    have hnodup := hstands.nodup h.linked
    simp only [List.nodup_append, List.nodup_cons, List.mem_append, List.mem_cons] at hnodup
    obtain ⟨-, ⟨hstart, -, ⟨hstop, -⟩, hinner⟩, hbefore⟩ := hnodup
    have hstopMoved : r.stop ∉ L.moved r.start entries := by
      rw [Layout.mem_moved]
      rintro (hgap | ⟨v, hv, hspan⟩)
      · exact hinner r.stop hgap r.stop (.inl rfl) rfl
      · exact (start_not_mem_span hcall hdone hv).2 hspan
    have hstopStart : r.stop ≠ r.start := fun heq => hstart (.inr (.inl heq.symm))
    have hgone : (L.gap r.start).flatMap (L.resettle r.start entries) = [] :=
      Layout.flatMap_resettle_eq_nil h.coherent.not_mem_own_gap fun n hn =>
        Layout.mem_moved.mpr (.inl hn)
    rw [h.filter_eq_resettle hcall hdone hspares (l := before) (q := p)
        (fun n hn => by rw [hstands]; simp [hn])
        fun n hn => ⟨fun heq => hbefore n hn n (.inl heq) rfl,
          fun hgap => hbefore n hn n (.inr (.inl hgap)) rfl⟩,
      h.filter_eq_resettle hcall hdone hspares (l := behind) (q := p)
        (fun n hn => by rw [hstands]; simp [hn])
        fun n hn => ⟨fun heq => hstart (.inr (.inr (heq ▸ hn))),
          fun hgap => hinner n hgap n (.inr hn) rfl⟩,
      hstands, List.flatMap_append, List.flatMap_cons, List.flatMap_append, List.flatMap_cons,
      hgone, Layout.resettle_start, Layout.resettle_of_not_mem hstopStart hstopMoved]
    simp
  · rw [if_neg hq]
    refine h.filter_eq_resettle hcall hdone hspares (q := q) (List.Subset.refl _) fun n hn => ?_
    constructor
    · rintro rfl
      exact hq (h.linked.parent_unique hn (by rw [hstands]; simp))
    · exact fun hgap => hq (h.linked.parent_unique hn (hstands.mem_children hgap))

end Call

/-- An accepted call that spares what it drops succeeds, and the session is nested behind it: the
range holds the entries that show the contents, and every other range has lost them. -/
theorem call (h : Nested s L) (hcall : s.Accepts r contents items)
    (hspares : s.Spares r contents) : ∃ f entries,
      Live.replaceContents r contents s = .ok ()
        ({ s with forest := f }.remember r (contents.filterMap Content.block?)) ∧
      List.Forall₂ (Shows f) contents entries ∧ L.Placeable r.start entries ∧
      (∀ n, n < s.forest.nextId → f.kind? n = s.forest.kind? n) ∧
      Nested ({ s with forest := f }.remember r (contents.filterMap Content.block?))
        (L.place r.start entries) := by
  obtain ⟨f, p, before, behind, entries, hdone⟩ := h.exists_called hcall
  have hplaceable := h.placeable hcall hdone hspares
  have hback := h.handsBack hcall hdone hspares
  have hkind := hdone.reconciled.kind?_eq
  refine ⟨f, entries, Live.replaceContents_ok hdone.run, hdone.shows, hplaceable, hkind,
    hplaceable.coherent h.coherent, hdone.reconciled.linked, ?_, h.block_owner, ?_, h.block_ends,
    h.home_unique, ?_, ?_, h.range_skeleton, ?_, h.range_apart, ?_, ?_⟩
  · have hlists := hplaceable.lists h.coherent h.lists
      (fun q hq => hback.homecomings_of_drops h.coherent hq)
      fun q hq => hback.homecomings_of_not_drops h.coherent hq
    rwa [← funext (h.children_eq hcall hdone hspares)] at hlists
  · intro i hi
    have hhome := h.block_home hi
    exact (isFragment_congr (hkind _ (lt_nextId_of_isFragment hhome))).trans hhome
  · intro m home hm
    rcases Layout.mem_held_place.mp hm with ⟨-, hin⟩ | ⟨-, hheld, -⟩
    · obtain ⟨i, hi, -, hhome⟩ := (nest_mem_iff hcall hdone).mp hin
      exact ⟨i, hi, hhome⟩
    · exact h.held_home hheld
  · intro m hm
    by_cases hstart : m = r.start
    · exact ⟨r, hcall.range, hstart.symm⟩
    · refine h.held_range fun hnil => hm ?_
      rw [Layout.held_place_of_ne hstart, hnil]
      rfl
  · intro r' hr'
    exact (text?_congr (hkind _ (h.range_lt hr').1)).trans (h.range_text hr')
  · intro r' b hb
    rw [Session.placedIn_remember] at hb
    by_cases hr' : r' = r
    · rw [if_pos hr'] at hb
      exact offers_block hcall.offers (Content.mem_blocks.mp hb)
    · rw [if_neg hr'] at hb
      exact h.placed_block hb
  · intro r' home hr' hheld
    rw [Session.placedIn_remember]
    rcases Layout.mem_held_place.mp hheld with ⟨hstart, hin⟩ | ⟨hstart, hold, -⟩
    · obtain rfl := (h.range_apart hr' hcall.range).2 hstart
      rw [if_pos rfl]
      obtain ⟨i, -, hc, hhome⟩ := (nest_mem_iff hcall hdone).mp hin
      exact ⟨_, Content.mem_blocks.mpr hc, hhome⟩
    · rw [if_neg fun heq => hstart (by rw [heq])]
      exact h.held_placed hr' hold

end Nested

end LiveTemplate
