import LiveTemplate.Proofs.Range.Blocks
import Mathlib.Data.List.Forall2

/-!
# The effect of a reconciliation

`reconcile_ok` says what becomes of a linked forest when a standing range is reconciled with
contents that it may hold: the computation succeeds, and `Reconciled` describes the forest behind
it.  The range holds one node for every item, in order; the nodes that were moved into it have left
the lists they stood in; the blocks that go home stand at the end of their fragments; and no other
list of children has changed.

Before the first edit the contents are looked at once (`NodeRange.wanted`), and what is refused is
refused there: `reconcile_error` says that the forest stays as it was.
-/

namespace LiveTemplate

set_option autoImplicit false

open Forest

/-! ## Contents that are accepted -/

/-- Contents stand for the items of the first and those of the others. -/
theorem Content.allItems_cons_eq_ok_iff {f : Forest} {c : Content} {rest : List Content}
    {items : List Item} :
    Content.allItems f (c :: rest) = .ok items ↔ ∃ first others, c.items f = .ok first ∧
      Content.allItems f rest = .ok others ∧ items = first ++ others := by
  have hcons : Content.allItems f (c :: rest) = (c.items f >>= fun first =>
      Content.allItems f rest >>= fun others => pure (first ++ others)) := rfl
  rw [hcons]
  cases c.items f with
  | error fault => exact iff_of_false nofun (fun ⟨_, _, h, _⟩ => nomatch h)
  | ok first =>
      cases Content.allItems f rest with
      | error fault => exact iff_of_false nofun (fun ⟨_, _, _, h, _⟩ => nomatch h)
      | ok others =>
          constructor
          · intro h
            cases h
            exact ⟨first, others, rfl, rfl, rfl⟩
          · rintro ⟨_, _, hfirst, hothers, rfl⟩
            cases hfirst
            cases hothers
            rfl

/-- An instance stands for its root nodes. -/
theorem Content.items_block_eq_ok_iff {f : Forest} {b : Block} {items : List Item} :
    (Content.block b).items f = .ok items ↔
      ∃ ns, b.roots f = .ok ns ∧ items = ns.map .node := by
  show (b.roots f).map (·.map .node) = .ok items ↔ _
  cases b.roots f with
  | error fault => exact iff_of_false nofun (fun ⟨_, h, _⟩ => nomatch h)
  | ok ns =>
      constructor
      · intro h
        cases h
        exact ⟨ns, rfl, rfl⟩
      · rintro ⟨_, h, rfl⟩
        cases h
        rfl

/-- A node among the items is one of the contents, or a root node of an instance among them. -/
theorem Content.node_mem_allItems {f : Forest} {contents : List Content} {items : List Item}
    {n : NodeId} (h : Content.allItems f contents = .ok items) (hn : .node n ∈ items) :
    .node n ∈ contents ∨ ∃ b ns, .block b ∈ contents ∧ b.roots f = .ok ns ∧ n ∈ ns := by
  induction contents generalizing items with
  | nil =>
      cases h
      exact nomatch hn
  | cons c rest ih =>
      obtain ⟨first, others, hfirst, hothers, rfl⟩ := Content.allItems_cons_eq_ok_iff.mp h
      rcases List.mem_append.mp hn with hn | hn
      · cases c with
        | text s =>
            cases hfirst
            exact absurd hn (by simp)
        | node m =>
            cases hfirst
            obtain rfl : n = m := by simpa using hn
            exact .inl List.mem_cons_self
        | refused fault => exact nomatch hfirst
        | block b =>
            obtain ⟨ns, hroots, rfl⟩ := Content.items_block_eq_ok_iff.mp hfirst
            exact .inr ⟨b, ns, List.mem_cons_self, hroots, by simpa using hn⟩
      · refine (ih hothers hn).imp (List.mem_cons_of_mem c) ?_
        rintro ⟨b, ns, hb, hroots⟩
        exact ⟨b, ns, List.mem_cons_of_mem c hb, hroots⟩

theorem Content.mem_blocks {contents : List Content} {b : Block} :
    b ∈ contents.filterMap Content.block? ↔ .block b ∈ contents := by
  rw [List.mem_filterMap]
  constructor
  · rintro ⟨c, hc, hblock⟩
    cases c with
    | block b' =>
        obtain rfl := Option.some.inj hblock
        exact hc
    | text t => exact nomatch hblock
    | node n => exact nomatch hblock
    | refused fault => exact nomatch hblock
  · exact fun hb => ⟨_, hb, rfl⟩

/-- The root nodes of an instance among the contents are items one after another. -/
theorem Content.roots_infix_allItems {f : Forest} {contents : List Content} {items : List Item}
    {b : Block} (h : Content.allItems f contents = .ok items)
    (hb : .block b ∈ contents) : ∃ ns, b.roots f = .ok ns ∧ ns.map Item.node <:+: items := by
  induction contents generalizing items with
  | nil => exact nomatch hb
  | cons c rest ih =>
      obtain ⟨first, others, hfirst, hothers, rfl⟩ := Content.allItems_cons_eq_ok_iff.mp h
      rcases List.mem_cons.mp hb with rfl | hb
      · obtain ⟨ns, hroots, rfl⟩ := Content.items_block_eq_ok_iff.mp hfirst
        exact ⟨ns, hroots, (List.prefix_append _ _).isInfix⟩
      · obtain ⟨ns, hroots, hinfix⟩ := ih hothers hb
        exact ⟨ns, hroots, hinfix.trans (List.suffix_append _ _).isInfix⟩

namespace NodeRange

variable {r : NodeRange} {f f' : Forest} {p n : NodeId}

/-- The nodes that are accepted are different from each other, from those seen before and from
the ends of the range. -/
theorem checkNodes_eq_ok_iff {seen ns : List NodeId} :
    r.checkNodes f seen ns = .ok () ↔
      ns.Nodup ∧ ∀ n ∈ ns, n ∉ seen ∧ n ≠ r.start ∧ n ≠ r.stop := by
  induction ns generalizing seen with
  | nil => simp [checkNodes]
  | cons n ns ih =>
      unfold checkNodes
      by_cases hend : n = r.start ∨ n = r.stop
      · rw [if_pos (by simpa using hend)]
        simp only [reduceCtorEq, List.mem_cons, forall_eq_or_imp, false_iff, not_and]
        exact fun _ h => (hend.elim h.2.1 h.2.2).elim
      · rw [if_neg (by simpa using hend)]
        rw [not_or] at hend
        by_cases hseen : n ∈ seen
        · rw [if_pos (by simpa using hseen)]
          simp only [reduceCtorEq, List.mem_cons, forall_eq_or_imp, false_iff, not_and]
          exact fun _ h => (h.1 hseen).elim
        · rw [if_neg (by simpa using hseen), ih]
          simp only [List.nodup_cons, List.mem_cons, forall_eq_or_imp, not_or]
          constructor
          · rintro ⟨hnodup, h⟩
            exact ⟨⟨fun hn => (h n hn).1.1 rfl, hnodup⟩, ⟨hseen, hend⟩,
              fun m hm => ⟨(h m hm).1.2, (h m hm).2⟩⟩
          · rintro ⟨⟨hn, hnodup⟩, -, h⟩
            exact ⟨hnodup, fun m hm => ⟨⟨fun e => hn (e ▸ hm), (h m hm).1⟩, (h m hm).2⟩⟩

/-- Contents are accepted when their items are, and the nodes among these may stand in the
range. -/
theorem wanted_eq_ok_iff {contents : List Content} {items : List Item} :
    r.wanted contents f = .ok items ↔ Content.allItems f contents = .ok items ∧
      (items.filterMap Item.node?).Nodup ∧
      ∀ n ∈ items.filterMap Item.node?, n ≠ r.start ∧ n ≠ r.stop := by
  unfold wanted
  cases hall : Content.allItems f contents with
  | error fault => exact iff_of_false nofun (fun h => nomatch h.1)
  | ok found =>
      show (r.checkNodes f [] (found.filterMap Item.node?) >>= fun _ => Except.ok found)
        = .ok items ↔ _
      cases hcheck : r.checkNodes f [] (found.filterMap Item.node?) with
      | error fault =>
          refine iff_of_false nofun ?_
          rintro ⟨h, hnodup, hends⟩
          cases h
          have haccepted : r.checkNodes f [] (items.filterMap Item.node?) = .ok () :=
            checkNodes_eq_ok_iff.mpr ⟨hnodup, fun n hn => ⟨List.not_mem_nil, hends n hn⟩⟩
          rw [hcheck] at haccepted
          exact nomatch haccepted
      | ok _ =>
          obtain ⟨hnodup, hends⟩ := checkNodes_eq_ok_iff.mp hcheck
          constructor
          · intro h
            cases h
            exact ⟨rfl, hnodup, fun n hn => (hends n hn).2⟩
          · rintro ⟨h, -⟩
            cases h
            rfl

/-! ## Finding nodes for items -/

/-- `f'` is `f` with some texts more, which stand alone. -/
structure Grown (f f' : Forest) : Prop where
  nextId_le : f.nextId ≤ f'.nextId
  node?_eq : ∀ n, n < f.nextId → f'.node? n = f.node? n
  fresh : ∀ n, f.nextId ≤ n → n < f'.nextId → ∃ s, f'.node? n = some { kind := .leaf (.text s) }

namespace Grown

theorem refl (f : Forest) : Grown f f :=
  ⟨Nat.le_refl _, fun _ _ => rfl, fun _ h h' => absurd h' (Nat.not_lt.mpr h)⟩

theorem trans {f'' : Forest} (h : Grown f f') (h' : Grown f' f'') : Grown f f'' where
  nextId_le := Nat.le_trans h.nextId_le h'.nextId_le
  node?_eq := fun n hn =>
    (h'.node?_eq n (Nat.lt_of_lt_of_le hn h.nextId_le)).trans (h.node?_eq n hn)
  fresh := by
    intro n hn hn'
    by_cases hmid : n < f'.nextId
    · rw [h'.node?_eq n hmid]
      exact h.fresh n hn hmid
    · exact h'.fresh n (Nat.le_of_not_lt hmid) hn'

theorem kind?_eq (h : Grown f f') (hn : n < f.nextId) : f'.kind? n = f.kind? n := by
  unfold kind?
  rw [h.node?_eq n hn]

theorem text?_eq (h : Grown f f') (hn : n < f.nextId) : f'.text? n = f.text? n :=
  text?_congr (h.kind?_eq hn)

theorem isFragment_eq (h : Grown f f') (hn : n < f.nextId) :
    f'.isFragment n = f.isFragment n :=
  isFragment_congr (h.kind?_eq hn)

/-- Texts that stand alone neither have children nor are any. -/
theorem views_eq (h : Grown f f') (n : NodeId) :
    f'.children n = f.children n ∧ f'.parent? n = f.parent? n := by
  unfold children parent?
  by_cases hn : n < f.nextId
  · rw [h.node?_eq n hn]
    exact ⟨rfl, rfl⟩
  · rw [node?_eq_none_iff.mpr (Nat.le_of_not_lt hn)]
    by_cases hn' : n < f'.nextId
    · obtain ⟨s, hs⟩ := h.fresh n (Nat.le_of_not_lt hn) hn'
      rw [hs]
      exact ⟨rfl, rfl⟩
    · rw [node?_eq_none_iff.mpr (Nat.le_of_not_lt hn')]
      exact ⟨rfl, rfl⟩

theorem linked (h : Grown f f') (hf : f.Linked) : f'.Linked where
  mem_children_iff := by
    intro n p
    rw [(h.views_eq p).1, (h.views_eq n).2, hf.mem_children_iff]
  nodup_children := by
    intro p
    rw [(h.views_eq p).1]
    exact hf.nodup_children p
  not_own_parent := by
    intro n
    rw [(h.views_eq n).2]
    exact hf.not_own_parent n
  alone_of_isFragment := by
    intro n hn
    rw [(h.views_eq n).2]
    by_cases hlt : n < f.nextId
    · exact hf.alone_of_isFragment (by rwa [← h.isFragment_eq hlt])
    · rw [parent?, node?_eq_none_iff.mpr (Nat.le_of_not_lt hlt)]
      rfl

end Grown

/-- Making the text of a string adds one node. -/
theorem growText_ok (f : Forest) (s : String) :
    ∃ f', Edit.growText s f = .ok f.nextId f' ∧ Grown f f' ∧ f'.nextId = f.nextId + 1 ∧
      f'.text? f.nextId = some s := by
  let counted : Forest := { f with tally := { f.tally with texts := f.tally.texts + 1 } }
  have hself : (counted.grow (.leaf (.text s))).node? f.nextId
      = some { kind := .leaf (.text s) } := node?_grow_self counted _
  refine ⟨counted.grow (.leaf (.text s)), rfl, ⟨?_, ?_, ?_⟩, nextId_grow counted _, ?_⟩
  · rw [nextId_grow]
    exact Nat.le_succ _
  · intro n hn
    exact node?_grow_of_ne (f := counted) _ (Nat.ne_of_lt hn)
  · intro n hn hn'
    rw [nextId_grow] at hn'
    obtain rfl : n = f.nextId := Nat.le_antisymm (Nat.le_of_lt_succ hn') hn
    exact ⟨s, hself⟩
  · unfold text? leaf?
    rw [hself]

/-- A node serves an item: it is the one asked for, or a text with the characters asked for. -/
def Serves (f : Forest) : Item → NodeId → Prop
  | .text s, n => f.text? n = some s
  | .node m, n => n = m

/-- A node that is asked for serves itself. -/
theorem mem_of_serves {items : List Item} {target : List NodeId}
    (h : List.Forall₂ (Serves f) items target) (hn : n ∈ items.filterMap Item.node?) :
    n ∈ target := by
  induction h with
  | nil => exact nomatch hn
  | @cons item m items target hserves _ ih =>
      cases item with
      | text s => exact List.mem_cons_of_mem m (ih hn)
      | node k =>
          obtain rfl : m = k := hserves
          rcases List.mem_cons.mp hn with rfl | hn
          · exact List.mem_cons_self
          · exact List.mem_cons_of_mem m (ih hn)

/-- A node that serves an item is asked for, or is a text. -/
theorem node_or_text_of_serves {items : List Item} {target : List NodeId}
    (h : List.Forall₂ (Serves f) items target) (hn : n ∈ target) :
    n ∈ items.filterMap Item.node? ∨ ∃ s, f.text? n = some s := by
  induction h with
  | nil => exact nomatch hn
  | @cons item m items target hserves _ ih =>
      rcases List.mem_cons.mp hn with rfl | hn
      · cases item with
        | text s => exact .inr ⟨s, hserves⟩
        | node k =>
            obtain rfl : n = k := hserves
            exact .inl List.mem_cons_self
      · refine (ih hn).imp_left fun hmem => ?_
        cases item with
        | text s => exact hmem
        | node k => exact List.mem_cons_of_mem k hmem

/-- Every item is served by a node of its own: the one it is, a spare text, or a new text. -/
structure Supplied (f f' : Forest) (spare : List NodeId) (items : List Item)
    (target : List NodeId) : Prop where
  grown : Grown f f'
  serves : List.Forall₂ (Serves f') items target
  nodup : target.Nodup
  origin : ∀ n ∈ target, n ∈ items.filterMap Item.node? ∨ n ∈ spare ∨
    f.nextId ≤ n ∧ n < f'.nextId

/-- An item is served by a node that none of the other items can be served by. -/
theorem Supplied.cons {f₁ : Forest} {spare spare' : List NodeId} {item : Item} {items : List Item}
    {target : List NodeId} (h : Supplied f₁ f' spare' items target) (hgrown : Grown f f₁)
    (hsub : spare' ⊆ spare) (hserves : Serves f' item n) (hlt : n < f₁.nextId)
    (hnodes : n ∉ items.filterMap Item.node?) (hspare : n ∉ spare')
    (horigin : n ∈ (item :: items).filterMap Item.node? ∨ n ∈ spare ∨ f.nextId ≤ n) :
    Supplied f f' spare (item :: items) (n :: target) where
  grown := hgrown.trans h.grown
  serves := .cons hserves h.serves
  nodup := by
    rw [List.nodup_cons]
    refine ⟨fun hmem => ?_, h.nodup⟩
    rcases h.origin n hmem with hn | hn | hn
    · exact hnodes hn
    · exact hspare hn
    · exact absurd hlt (Nat.not_lt.mpr hn.1)
  origin := by
    intro k hk
    rcases List.mem_cons.mp hk with rfl | hk
    · rcases horigin with hn | hn | hn
      · exact .inl hn
      · exact .inr (.inl hn)
      · exact .inr (.inr ⟨hn, Nat.lt_of_lt_of_le hlt h.grown.nextId_le⟩)
    · rcases h.origin k hk with hn | hn | hn
      · left
        cases item with
        | node m => exact List.mem_cons_of_mem m hn
        | text s => exact hn
      · exact .inr (.inl (hsub hn))
      · exact .inr (.inr ⟨Nat.le_trans hgrown.nextId_le hn.1, hn.2⟩)

/-- All items can be served. -/
theorem nodesFor_ok {spare : List NodeId} {items : List Item} (hspare : spare.Nodup)
    (hlt : ∀ n ∈ spare, n < f.nextId) (hnodes : (items.filterMap Item.node?).Nodup)
    (hltNodes : ∀ n ∈ items.filterMap Item.node?, n < f.nextId)
    (hapart : ∀ n ∈ spare, n ∉ items.filterMap Item.node?) :
    ∃ target f', nodesFor spare items f = .ok target f' ∧ Supplied f f' spare items target := by
  induction items generalizing f spare with
  | nil => exact ⟨[], f, rfl, Grown.refl f, .nil, List.nodup_nil, nofun⟩
  | cons item items ih =>
      cases item with
      | node m =>
          simp only [List.filterMap_cons, Item.node?, List.nodup_cons, List.mem_cons,
            forall_eq_or_imp, not_or] at hnodes hltNodes hapart
          obtain ⟨target, f', hrun, h⟩ :=
            ih hspare hlt hnodes.2 hltNodes.2 fun n hn => (hapart n hn).2
          refine ⟨m :: target, f', ?_, h.cons (.refl f) (List.Subset.refl spare) rfl hltNodes.1
            hnodes.1 (fun hm => (hapart m hm).1 rfl) (.inl (by simp [Item.node?]))⟩
          show (nodesFor spare items >>= fun rest => pure (m :: rest)) f = _
          rw [bind_of_ok hrun]
          rfl
      | text s =>
          simp only [List.filterMap_cons, Item.node?] at hnodes hltNodes hapart
          cases hfind : spare.find? (fun n => f.text? n == some s) with
          | some m =>
              have hm : m ∈ spare := List.mem_of_find?_eq_some hfind
              have htext : f.text? m = some s := by simpa using List.find?_some hfind
              have hsub : spare.erase m ⊆ spare := fun n hn => List.mem_of_mem_erase hn
              obtain ⟨target, f', hrun, h⟩ :=
                ih (hspare.erase m) (fun n hn => hlt n (hsub hn)) hnodes hltNodes
                  fun n hn => hapart n (hsub hn)
              have hserves : f'.text? m = some s := by
                rw [h.grown.text?_eq (hlt m hm), htext]
              refine ⟨m :: target, f', ?_, h.cons (.refl f) hsub hserves (hlt m hm) (hapart m hm)
                hspare.not_mem_erase (.inr (.inl hm))⟩
              unfold nodesFor
              rw [bind_of_ok (get_ok f), hfind]
              show (nodesFor (spare.erase m) items >>= fun rest => pure (m :: rest)) f = _
              rw [bind_of_ok hrun]
              rfl
          | none =>
              obtain ⟨f₁, hgrow, hf₁, hnext, htext⟩ := growText_ok f s
              have hle := hf₁.nextId_le
              have hnew : f.nextId < f₁.nextId := by
                rw [hnext]
                exact Nat.lt_succ_self _
              obtain ⟨target, f', hrun, h⟩ :=
                ih (f := f₁) hspare (fun n hn => Nat.lt_of_lt_of_le (hlt n hn) hle) hnodes
                  (fun n hn => Nat.lt_of_lt_of_le (hltNodes n hn) hle) hapart
              have hserves : f'.text? f.nextId = some s := by
                rw [h.grown.text?_eq hnew, htext]
              refine ⟨f.nextId :: target, f', ?_, h.cons hf₁ (List.Subset.refl spare) hserves hnew
                (fun hn => Nat.lt_irrefl _ (hltNodes _ hn)) (fun hn => Nat.lt_irrefl _ (hlt _ hn))
                (.inr (.inr (Nat.le_refl _)))⟩
              unfold nodesFor
              rw [bind_of_ok (get_ok f), hfind]
              show (Edit.growText s >>= fun m => nodesFor spare items >>= fun rest =>
                pure (m :: rest)) f = _
              rw [bind_of_ok hgrow, bind_of_ok hrun]
              rfl

/-! ## Blocks that go home -/

theorem mem_released {placed : List Block} {kept : List InstanceId}
    {current wanted : List NodeId} {e : Block × List NodeId} :
    e ∈ released f placed kept current wanted ↔
      e.1 ∈ placed ∧ e.1.roots f = .ok e.2 ∧ e.1.owner ∉ kept ∧ (∀ n ∈ e.2, n ∈ current) ∧
        ∀ n ∈ e.2, n ∉ wanted := by
  unfold released
  rw [List.mem_filterMap]
  constructor
  · rintro ⟨b, hb, he⟩
    split at he
    · next roots hroots =>
        split at he
        · next hgoes =>
            cases he
            refine ⟨hb, hroots, ?_⟩
            simpa [goesHome, and_assoc] using hgoes
        · exact nomatch he
    · exact nomatch he
  · rintro ⟨hb, hroots, hgoes⟩
    refine ⟨e.1, hb, ?_⟩
    rw [hroots]
    exact if_pos (by simpa [goesHome, and_assoc] using hgoes)

/-- The blocks that a reconciliation hands back to their fragments. -/
def handedBack (f : Forest) (placed : List Block) (contents : List Content)
    (current wanted : List NodeId) : List (Block × List NodeId) :=
  released f placed ((contents.filterMap Content.block?).map (·.owner)) current wanted

/-- The nodes that come home were in the range. -/
theorem mem_of_mem_homecomings {placed : List Block} {contents : List Content}
    {current wanted : List NodeId} {q : NodeId}
    (h : n ∈ homecomings (handedBack f placed contents current wanted) q) : n ∈ current := by
  obtain ⟨e, he, -, hn⟩ := exists_of_mem_homecomings h
  rw [handedBack, mem_released] at he
  exact he.2.2.2.1 n hn

/-- They go home to fragments if they were placed from there. -/
theorem isFragment_of_handedBack {placed : List Block} {contents : List Content}
    {current wanted : List NodeId} (hplaced : ∀ b ∈ placed, f.isFragment b.home = true) :
    ∀ e ∈ handedBack f placed contents current wanted, f.isFragment e.1.home = true := by
  intro e he
  rw [handedBack, mem_released] at he
  exact hplaced e.1 he.1

/-- Nothing goes home if everything that was placed is among the contents again. -/
theorem handedBack_of_kept {placed : List Block} {contents : List Content}
    {current wanted : List NodeId} (hkept : ∀ b ∈ placed, .block b ∈ contents) :
    handedBack f placed contents current wanted = [] := by
  rw [List.eq_nil_iff_forall_not_mem]
  intro e he
  rw [handedBack, mem_released] at he
  exact he.2.2.1 (List.mem_map_of_mem (List.mem_filterMap.mpr ⟨_, hkept e.1 he.1, rfl⟩))

/-! ## The whole effect -/

/-- What a reconciliation has made of the forest `f`: `target` is what the range holds now, one
node for every item, and `released` are the blocks that went home. -/
structure Reconciled (r : NodeRange) (f f' : Forest) (p : NodeId)
    (before inside behind : List NodeId) (items : List Item)
    (released : List (Block × List NodeId)) (target : List NodeId) : Prop where
  linked : f'.Linked
  serves : List.Forall₂ (Serves f') items target
  nodup : target.Nodup
  origin : ∀ n ∈ target, n ∈ items.filterMap Item.node? ∨
    (n ∈ inside ∧ (f.text? n).isSome = true ∧ n ∉ items.filterMap Item.node? ∧
      n ∉ released.flatMap (·.2)) ∨ f.nextId ≤ n
  children_eq : ∀ q, f'.children q =
    (if q = p then
      before.filter (· ∉ target) ++ r.start :: (target ++ r.stop :: behind.filter (· ∉ target))
    else (f.children q).filter (· ∉ target)) ++ homecomings released q
  nextId_le : f.nextId ≤ f'.nextId
  kind?_eq : ∀ n, n < f.nextId → f'.kind? n = f.kind? n

/-- The range stands where it stood and holds the target. -/
theorem Reconciled.stands {before inside behind target : List NodeId} {items : List Item}
    {released : List (Block × List NodeId)}
    (h : Reconciled r f f' p before inside behind items released target) :
    r.Stands f' p (before.filter (· ∉ target)) target
      (behind.filter (· ∉ target) ++ homecomings released p) := by
  rw [Stands, h.children_eq, if_pos rfl]
  simp

section Whole

variable {before inside behind : List NodeId} {placed : List Block} {contents : List Content}
  {items : List Item}

/-- The nodes that stay in the range are those of the old content that are in the new one. -/
theorem filter_removed {target leaving : List NodeId} (hapart : ∀ n ∈ target, n ∉ leaving) :
    (inside.filter (· ∉ inside.filter fun n => !target.contains n && !leaving.contains n)).filter
      (· ∉ leaving) = inside.filter (· ∈ target) := by
  rw [List.filter_filter]
  refine List.filter_congr fun n hn => ?_
  by_cases hmem : n ∈ target
  · simp [hmem, hapart n hmem]
  · simp [hmem, hn]

/-- Removing what is not wanted and sending blocks home leaves what stays in the range. -/
theorem relinked_cleared {released : List (Block × List NodeId)} {target : List NodeId}
    (hf : f.Linked) (hr : r.Stands f p before inside behind)
    (hhome : ∀ e ∈ released, f.isFragment e.1.home = true)
    (hinside : ∀ e ∈ released, ∀ n ∈ e.2, n ∈ inside) (hnodup : ∀ e ∈ released, e.2.Nodup)
    (hapart : ∀ n ∈ target, n ∉ released.flatMap (·.2)) :
    ∃ f₁ f₂, r.removeAll (inside.filter fun n =>
        !target.contains n && !(released.flatMap (·.2)).contains n) f = .ok () f₁ ∧
      sendAllHome released f₁ = .ok () f₂ ∧ Relinked f f₂ fun q =>
        (if q = p then
          before ++ r.start :: (inside.filter (· ∈ target) ++ r.stop :: behind)
        else f.children q) ++ homecomings released q := by
  generalize hgone : (inside.filter fun n =>
    !target.contains n && !(released.flatMap (·.2)).contains n) = gone
  have hgoneInside : ∀ n ∈ gone, n ∈ inside := by
    rw [← hgone]
    exact fun n hn => List.mem_of_mem_filter hn
  have hleaveInside : ∀ n ∈ released.flatMap (·.2), n ∈ inside := by
    intro n hn
    obtain ⟨e, he, hmem⟩ := List.mem_flatMap.mp hn
    exact hinside e he n hmem
  obtain ⟨f₁, hremove, hf₁⟩ := relinked_removeAll hf (hr.parent_eq hf)
    (fun n hn => ⟨hr.mem_children (hgoneInside n hn), (hr.ne_ends hf (hgoneInside n hn)).1,
      (hr.ne_ends hf (hgoneInside n hn)).2.1⟩)
    (hgone ▸ (hr.nodup_inside hf).filter _)
  have hmoved : ∀ e ∈ released, ∀ n ∈ e.2, n < f₁.nextId ∧ f₁.isFragment n = false := by
    intro e he n hn
    have hmem := hr.mem_children (hinside e he n hn)
    rw [hf₁.nextId_eq, hf₁.isFragment_eq]
    exact ⟨hf.lt_nextId hmem, hf.not_isFragment hmem⟩
  obtain ⟨f₂, hsend, hf₂⟩ := relinked_sendAllHome hf₁.linked
    (fun e he => (hf₁.isFragment_eq _).trans (hhome e he)) hmoved hnodup
  refine ⟨f₁, f₂, hremove, hsend, (hf₁.trans hf₂).congr fun q => ?_⟩
  rw [hf₁.children_eq]
  congr 1
  by_cases hq : q = p
  · have hout : ∀ {l : List NodeId}, (∀ n ∈ l, n ∉ inside) →
        (l.filter (· ∉ gone)).filter (· ∉ released.flatMap (·.2)) = l := by
      intro l hl
      rw [filter_not_mem_of_disjoint fun n hn h => hl n hn (hgoneInside n h),
        filter_not_mem_of_disjoint fun n hn h => hl n hn (hleaveInside n h)]
    have hstart : ∀ n ∈ [r.start], n ∉ inside := by
      intro n hn h
      exact (hr.ne_ends hf h).1 (List.mem_singleton.mp hn)
    have hstop : ∀ n ∈ [r.stop], n ∉ inside := by
      intro n hn h
      exact (hr.ne_ends hf h).2.1 (List.mem_singleton.mp hn)
    have hsplit : f.children q = before ++ [r.start] ++ inside ++ [r.stop] ++ behind := by
      rw [hq, hr]
      simp
    rw [if_pos hq, hsplit]
    simp only [List.filter_append]
    rw [hout fun n hn h => (hr.ne_ends hf h).2.2.1 hn, hout hstart, hout hstop,
      hout fun n hn h => (hr.ne_ends hf h).2.2.2 hn, ← hgone, filter_removed hapart]
    simp
  · have hout : ∀ n ∈ f.children q, n ∉ inside := fun n hn h =>
      hq (hf.parent_unique hn (hr.mem_children h))
    rw [if_neg hq, filter_not_mem_of_disjoint fun n hn h => hout n hn (hgoneInside n h),
      filter_not_mem_of_disjoint fun n hn h => hout n hn (hleaveInside n h)]

/-- The cursor of the first walk is the first node that stays, and the walk is over if none
does. -/
theorem arrange_find (inside target : List NodeId) :
    r.arrange (inside.find? target.contains) (target.filter inside.contains) f
      = r.arrange (inside.filter (· ∈ target) ++ [r.stop]).head?
          (target.filter inside.contains) f := by
  cases hkept : inside.filter (· ∈ target) with
  | nil =>
      have hstay : target.filter inside.contains = [] := by
        rw [List.filter_eq_nil_iff]
        intro n hn hmem
        have hboth : n ∈ inside.filter (· ∈ target) :=
          List.mem_filter.mpr ⟨by simpa using hmem, by simpa using hn⟩
        rw [hkept] at hboth
        exact nomatch hboth
      rw [hstay]
      rfl
  | cons n kept =>
      have hfind : inside.find? target.contains = some n := by
        have heq : inside.filter target.contains = inside.filter (· ∈ target) :=
          List.filter_congr fun m _ => by simp
        rw [← List.head?_filter, heq, hkept]
        rfl
      rw [hfind]
      rfl

/-- The first walk brings what stays into the order of the target. -/
theorem relinked_kept {target : List NodeId} (hf : f.Linked)
    (hr : r.Stands f p before (inside.filter (· ∈ target)) behind) (hnodup : target.Nodup) :
    ∃ f', r.arrange (inside.find? target.contains) (target.filter inside.contains) f
        = .ok () f' ∧ f'.next? r.start = (target.filter inside.contains ++ [r.stop]).head? ∧
      Relinked f f' fun q =>
        if q = p then before ++ r.start :: (target.filter inside.contains ++ r.stop :: behind)
        else f.children q := by
  have hsame : ∀ n, n ∈ target.filter inside.contains ↔ n ∈ inside.filter (· ∈ target) := by
    intro n
    simp [List.mem_filter, and_comm]
  have hr₀ : r.Stands f p before ([] ++ inside.filter (· ∈ target)) behind := hr
  obtain ⟨f', hrun, hf'⟩ := relinked_arrange hf hr₀ (fun n hn => (hsame n).mpr hn)
    (hnodup.filter inside.contains) fun n hn =>
      ⟨List.not_mem_nil, hr.movable hf ((hsame n).mp hn)
        (hf.ne_of_mem_children (hr.mem_children ((hsame n).mp hn)))⟩
  have hout : ∀ {l : List NodeId}, (∀ n ∈ l, n ∉ inside.filter (· ∈ target)) →
      l.filter (· ∉ target.filter inside.contains) = l := fun hl =>
    filter_not_mem_of_disjoint fun n hn h => hl n hn ((hsame n).mp h)
  have hchildren : Relinked f f' fun q =>
      if q = p then before ++ r.start :: (target.filter inside.contains ++ r.stop :: behind)
      else f.children q := by
    refine hf'.congr fun q => ?_
    by_cases hq : q = p
    · rw [if_pos hq, if_pos hq, hout fun n hn h => (hr.ne_ends hf h).2.2.1 hn,
        hout fun n hn h => (hr.ne_ends hf h).2.2.2 hn, List.nil_append]
    · rw [if_neg hq, if_neg hq, hout fun n hn h => hq (hf.parent_unique hn (hr.mem_children h))]
  refine ⟨f', (arrange_find inside target).trans hrun, ?_, hchildren⟩
  unfold next?
  rw [hchildren.linked.after_eq ((hchildren.children_eq p).trans (if_pos rfl)), head?_append_cons]

/-- Bringing what stays into order and then inserting the rest leaves the whole target. -/
theorem relinked_ordered {target : List NodeId} (hf : f.Linked)
    (hr : r.Stands f p before (inside.filter (· ∈ target)) behind) (hnodup : target.Nodup)
    (hfree : ∀ n ∈ target, r.Movable f p n) :
    ∃ f₁ f₂, r.arrange (inside.find? target.contains) (target.filter inside.contains) f
        = .ok () f₁ ∧ r.arrange (f₁.next? r.start) target f₁ = .ok () f₂ ∧
      Relinked f f₂ fun q =>
        if q = p then
          before.filter (· ∉ target) ++ r.start :: (target ++
            r.stop :: behind.filter (· ∉ target))
        else (f.children q).filter (· ∉ target) := by
  obtain ⟨f₁, hfirst, hnext, hf₁⟩ := relinked_kept hf hr hnodup
  have hr₁ : r.Stands f₁ p before ([] ++ target.filter inside.contains) behind := by
    rw [Stands, hf₁.children_eq, if_pos rfl]
    rfl
  obtain ⟨f₂, hsecond, hf₂⟩ := relinked_arrange hf₁.linked hr₁
    (fun n hn => List.mem_of_mem_filter hn) hnodup
    fun n hn => ⟨List.not_mem_nil, (hfree n hn).of_relinked hf₁⟩
  refine ⟨f₁, f₂, hfirst, hnext ▸ hsecond, (hf₁.trans hf₂).congr fun q => ?_⟩
  by_cases hq : q = p
  · rw [if_pos hq, if_pos hq]
    rfl
  · rw [if_neg hq, if_neg hq, hf₁.children_eq, if_neg hq]

/-- A text that has just been made may be moved into the range. -/
theorem Grown.movable (h : Grown f f') (hf : f.Linked) (hr : r.Stands f p before inside behind)
    (hge : f.nextId ≤ n) (hlt : n < f'.nextId) : r.Movable f' p n := by
  have hne : ∀ m, m < f.nextId → n ≠ m := fun m hm => Nat.ne_of_gt (Nat.lt_of_lt_of_le hm hge)
  obtain ⟨s, hs⟩ := h.fresh n hge hlt
  refine ⟨hne _ ?_, hne _ ?_, hne _ ?_, hlt, ?_⟩
  · exact hf.lt_nextId (p := p) (by rw [hr]; simp)
  · exact hf.lt_nextId (p := p) (by rw [hr]; simp)
  · exact lt_nextId_of_mem_children (n := r.start) (by rw [hr]; simp)
  · unfold isFragment
    rw [hs]

/-- The nodes that serve the items may be moved into the range, but for the one it stands in and
for fragments. -/
theorem Supplied.movable {spare target : List NodeId} (h : Supplied f f' spare items target)
    (hf : f.Linked) (hr : r.Stands f p before inside behind) (hspare : ∀ n ∈ spare, n ∈ inside)
    (hends : ∀ n ∈ items.filterMap Item.node?, n ≠ r.start ∧ n ≠ r.stop)
    (hnodes : n ∈ items.filterMap Item.node? → n < f.nextId ∧ f.isFragment n = false)
    (hn : n ∈ target) (hparent : n ≠ p) : r.Movable f' p n := by
  rcases h.origin n hn with hitem | hold | ⟨hge, hlt⟩
  · obtain ⟨hlt, hfragment⟩ := hnodes hitem
    exact ⟨(hends n hitem).1, (hends n hitem).2, hparent,
      Nat.lt_of_lt_of_le hlt h.grown.nextId_le, (h.grown.isFragment_eq hlt).trans hfragment⟩
  · have hr' : r.Stands f' p before inside behind := (h.grown.views_eq p).1.trans hr
    exact hr'.movable (h.grown.linked hf) (hspare n hold) hparent
  · exact h.grown.movable hf hr hge hlt

/-- What the first half of a reconciliation has made of the forest `f`: a node has been found for
every item, and what is not wanted has left the range. -/
structure Cleared (r : NodeRange) (f f' : Forest) (p : NodeId)
    (before inside behind : List NodeId) (items : List Item)
    (released : List (Block × List NodeId)) (target : List NodeId) : Prop where
  linked : f'.Linked
  serves : List.Forall₂ (Serves f') items target
  nodup : target.Nodup
  origin : ∀ n ∈ target, n ∈ items.filterMap Item.node? ∨
    (n ∈ inside ∧ (f.text? n).isSome = true ∧ n ∉ items.filterMap Item.node? ∧
      n ∉ released.flatMap (·.2)) ∨ f.nextId ≤ n
  apart : ∀ n ∈ target, n ∉ released.flatMap (·.2)
  movable : ∀ n ∈ target, n ≠ p →
    (n ∈ items.filterMap Item.node? → f.isFragment n = false) → r.Movable f' p n
  children_eq : ∀ q, f'.children q =
    (if q = p then before ++ r.start :: (inside.filter (· ∈ target) ++ r.stop :: behind)
    else f.children q) ++ homecomings released q
  nextId_le : f.nextId ≤ f'.nextId
  kind?_eq : ∀ n, n < f.nextId → f'.kind? n = f.kind? n

section Cleared

variable {released : List (Block × List NodeId)} {target : List NodeId}

/-- The range still stands, and what came home to the same parent is behind it. -/
theorem Cleared.stands (h : Cleared r f f' p before inside behind items released target) :
    r.Stands f' p before (inside.filter (· ∈ target)) (behind ++ homecomings released p) := by
  rw [Stands, h.children_eq, if_pos rfl]
  simp

/-- What came home is not wanted. -/
theorem Cleared.homecomings_kept
    (h : Cleared r f f' p before inside behind items released target) {taken : List NodeId}
    (htaken : ∀ n ∈ taken, n ∈ target) (q : NodeId) :
    (homecomings released q).filter (· ∉ taken) = homecomings released q := by
  refine filter_not_mem_of_disjoint fun n hn hmem => h.apart n (htaken n hmem) ?_
  obtain ⟨e, he, -, hroots⟩ := exists_of_mem_homecomings hn
  exact List.mem_flatMap.mpr ⟨e, he, hroots⟩

/-- The node that the range stands in is wanted only if it is asked for. -/
theorem Cleared.parent_mem (h : Cleared r f f' p before inside behind items released target)
    (hf : f.Linked) (hr : r.Stands f p before inside behind) (hp : p ∈ target) :
    p ∈ items.filterMap Item.node? := by
  rcases h.origin p hp with hitem | hold | hnew
  · exact hitem
  · exact absurd rfl (hf.ne_of_mem_children (hr.mem_children hold.1))
  · exact absurd (lt_nextId_of_mem_children (n := r.start) (by rw [hr]; simp))
      (Nat.not_lt.mpr hnew)

/-- What serves contents that the range may hold can be moved into it. -/
theorem Cleared.movable_of_may (h : Cleared r f f' p before inside behind items released target)
    (hf : f.Linked) (hr : r.Stands f p before inside behind)
    (hnodes : ∀ n ∈ items.filterMap Item.node?, n ≠ p ∧ n < f.nextId ∧ f.isFragment n = false) :
    ∀ n ∈ target, r.Movable f' p n := by
  refine fun n hn => h.movable n hn ?_ fun hitem => (hnodes n hitem).2.2
  rintro rfl
  exact (hnodes n (h.parent_mem hf hr hn)).1 rfl

/-- The two walks complete the reconciliation. -/
theorem Cleared.reconciled {f₁ : Forest}
    (h : Cleared r f f₁ p before inside behind items released target)
    (hf' : Relinked f₁ f' fun q =>
      if q = p then
        before.filter (· ∉ target) ++ r.start :: (target ++
          r.stop :: (behind ++ homecomings released p).filter (· ∉ target))
      else (f₁.children q).filter (· ∉ target)) :
    Reconciled r f f' p before inside behind items released target where
  linked := hf'.linked
  serves := by
    refine h.serves.imp fun item n hitem => ?_
    cases item with
    | text s => exact (hf'.text?_eq n).trans hitem
    | node m => exact hitem
  nodup := h.nodup
  origin := h.origin
  children_eq := by
    intro q
    have hhome := h.homecomings_kept (fun n hn => hn) q
    rw [hf'.children_eq, h.children_eq]
    by_cases hq : q = p
    · subst hq
      rw [if_pos rfl, if_pos rfl, List.filter_append, hhome]
      simp
    · rw [if_neg hq, if_neg hq, if_neg hq, List.filter_append, hhome]
  nextId_le := hf'.nextId_eq ▸ h.nextId_le
  kind?_eq := fun n hn => (hf'.kind?_eq n).trans (h.kind?_eq n hn)

end Cleared

/-- The texts of a range that strings may take over: those that are neither wanted as nodes nor go
home. -/
def spareTexts (f : Forest) (current wanted leaving : List NodeId) : List NodeId :=
  current.filter fun n =>
    (f.text? n).isSome && !wanted.contains n && !leaving.contains n

theorem mem_spareTexts {current wanted leaving : List NodeId} :
    n ∈ spareTexts f current wanted leaving ↔
      n ∈ current ∧ (f.text? n).isSome = true ∧ n ∉ wanted ∧ n ∉ leaving := by
  unfold spareTexts
  simp [and_assoc]

/-- The first half of a reconciliation succeeds on a standing range with accepted contents: nodes
are found for all items, what is not wanted is removed, and blocks go home. -/
theorem cleared_ok (hf : f.Linked) (hr : r.Stands f p before inside behind)
    (hitems : r.wanted contents f = .ok items)
    (hnodes : ∀ n ∈ items.filterMap Item.node?, n < f.nextId)
    {released : List (Block × List NodeId)}
    (hreleased : handedBack f placed contents inside (items.filterMap Item.node?) = released)
    (hhome : ∀ e ∈ released, f.isFragment e.1.home = true) :
    ∃ target f₁ f₂ f', nodesFor (spareTexts f inside (items.filterMap Item.node?)
          (released.flatMap (·.2))) items f = .ok target f₁ ∧
      r.removeAll (inside.filter fun n =>
          !target.contains n && !(released.flatMap (·.2)).contains n) f₁ = .ok () f₂ ∧
      sendAllHome released f₂ = .ok () f' ∧
      Cleared r f f' p before inside behind items released target := by
  obtain ⟨-, hnodupNodes, hends⟩ := wanted_eq_ok_iff.mp hitems
  have hinside := hr.nodup_inside hf
  have hback : ∀ e ∈ released, e.1.roots f = .ok e.2 ∧
      (∀ n ∈ e.2, n ∈ inside) ∧ ∀ n ∈ e.2, n ∉ items.filterMap Item.node? := by
    intro e he
    rw [← hreleased, handedBack, mem_released] at he
    exact ⟨he.2.1, he.2.2.2⟩
  have hspare : (spareTexts f inside (items.filterMap Item.node?)
      (released.flatMap (·.2))).Nodup := hinside.filter _
  obtain ⟨target, f₁, hfind, hsupplied⟩ :=
    nodesFor_ok (f := f) hspare
      (fun n hn => hf.lt_nextId (hr.mem_children (mem_spareTexts.mp hn).1)) hnodupNodes hnodes
      fun n hn => (mem_spareTexts.mp hn).2.2.1
  have hgrown := hsupplied.grown
  have hr₁ : r.Stands f₁ p before inside behind := (hgrown.views_eq p).1.trans hr
  have hapart : ∀ n ∈ target, n ∉ released.flatMap (·.2) := by
    intro n hn hleave
    obtain ⟨e, he, hmem⟩ := List.mem_flatMap.mp hleave
    obtain ⟨-, hin, hout⟩ := hback e he
    rcases hsupplied.origin n hn with h | h | h
    · exact hout n hmem h
    · exact (mem_spareTexts.mp h).2.2.2 hleave
    · exact absurd (hf.lt_nextId (hr.mem_children (hin n hmem))) (Nat.not_lt.mpr h.1)
  obtain ⟨f₂, f₃, hremove, hsend, hf₃⟩ := relinked_cleared (hgrown.linked hf) hr₁
    (fun e he =>
      (hgrown.isFragment_eq (lt_nextId_of_isFragment (hhome e he))).trans (hhome e he))
    (fun e he => (hback e he).2.1) (fun e he => nodup_roots hf (hback e he).1) hapart
  refine ⟨target, f₁, f₂, f₃, hfind, hremove, hsend, hf₃.linked, ?_, hsupplied.nodup, ?_, hapart,
    ?_, ?_, ?_, ?_⟩
  · refine hsupplied.serves.imp fun item n hitem => ?_
    cases item with
    | text s => exact (hf₃.text?_eq n).trans hitem
    | node m => exact hitem
  · intro n hn
    rcases hsupplied.origin n hn with h | h | h
    · exact .inl h
    · exact .inr (.inl (mem_spareTexts.mp h))
    · exact .inr (.inr h.1)
  · exact fun n hn hne hfragment => (hsupplied.movable hf hr
      (fun n hn => (mem_spareTexts.mp hn).1) hends (fun hitem => ⟨hnodes n hitem, hfragment hitem⟩)
      hn hne).of_relinked hf₃
  · intro q
    rw [hf₃.children_eq, (hgrown.views_eq q).1]
  · rw [hf₃.nextId_eq]
    exact hgrown.nextId_le
  · intro n hn
    rw [hf₃.kind?_eq, hgrown.kind?_eq hn]

/-- A reconciliation whose first half is done has only the two walks left. -/
theorem reconcile_of_cleared {released : List (Block × List NodeId)} {target : List NodeId}
    {f₁ f₂ f₃ : Forest} (hitems : r.wanted contents f = .ok items)
    (hinside : r.items f = .ok inside)
    (hreleased : handedBack f placed contents inside (items.filterMap Item.node?) = released)
    (hfind : nodesFor (spareTexts f inside (items.filterMap Item.node?)
      (released.flatMap (·.2))) items f = .ok target f₁)
    (hremove : r.removeAll (inside.filter fun n =>
      !target.contains n && !(released.flatMap (·.2)).contains n) f₁ = .ok () f₂)
    (hsend : sendAllHome released f₂ = .ok () f₃) :
    r.reconcile placed contents f
      = (r.arrange (inside.find? target.contains) (target.filter inside.contains) >>= fun _ =>
          get >>= fun g => r.arrange (g.next? r.start) target >>= fun _ =>
            (pure (contents.filterMap Content.block?) : Edit (List Block))) f₃ := by
  unfold reconcile
  rw [bind_of_ok (look_of_ok hitems), bind_of_ok (look_of_ok hinside), bind_of_ok (get_ok f)]
  unfold handedBack at hreleased
  unfold spareTexts at hfind
  rw [hreleased, bind_of_ok hfind, bind_of_ok hremove, bind_of_ok hsend]

/-- Reconciling a standing range with accepted contents gets as far as the two walks. -/
theorem reconcile_cleared (hf : f.Linked) (hr : r.Stands f p before inside behind)
    (hitems : r.wanted contents f = .ok items)
    (hnodes : ∀ n ∈ items.filterMap Item.node?, n < f.nextId)
    (hplaced : ∀ b ∈ placed, f.isFragment b.home = true) :
    ∃ target f', r.reconcile placed contents f
        = (r.arrange (inside.find? target.contains) (target.filter inside.contains) >>= fun _ =>
            get >>= fun g => r.arrange (g.next? r.start) target >>= fun _ =>
              (pure (contents.filterMap Content.block?) : Edit (List Block))) f' ∧
      Cleared r f f' p before inside behind items
        (handedBack f placed contents inside (items.filterMap Item.node?)) target := by
  obtain ⟨target, f₁, f₂, f₃, hfind, hremove, hsend, hcleared⟩ :=
    cleared_ok hf hr hitems hnodes rfl (isFragment_of_handedBack hplaced)
  exact ⟨target, f₃, reconcile_of_cleared hitems (hr.items_eq hf) rfl hfind hremove hsend, hcleared⟩

/-- Reconciling a standing range with contents that it may hold succeeds. -/
theorem reconcile_ok (hf : f.Linked) (hr : r.Stands f p before inside behind)
    (hitems : r.wanted contents f = .ok items)
    (hnodes : ∀ n ∈ items.filterMap Item.node?,
      n ≠ p ∧ n < f.nextId ∧ f.isFragment n = false)
    (hplaced : ∀ b ∈ placed, f.isFragment b.home = true) :
    ∃ target f', r.reconcile placed contents f = .ok (contents.filterMap Content.block?) f' ∧
      Reconciled r f f' p before inside behind items
        (handedBack f placed contents inside (items.filterMap Item.node?)) target := by
  obtain ⟨target, f₁, hrun, hcleared⟩ :=
    reconcile_cleared hf hr hitems (fun n hn => (hnodes n hn).2.1) hplaced
  obtain ⟨f₂, f₃, hkeep, hinsert, hf₃⟩ := relinked_ordered hcleared.linked hcleared.stands
    hcleared.nodup (hcleared.movable_of_may hf hr hnodes)
  refine ⟨target, f₃, ?_, hcleared.reconciled hf₃⟩
  rw [hrun, bind_of_ok hkeep, bind_of_ok (get_ok f₂), bind_of_ok hinsert]
  rfl

/-- Contents that are refused are refused before the first edit. -/
theorem reconcile_error {fault : Fault} (h : r.wanted contents f = .error fault) :
    r.reconcile placed contents f = .error fault f := by
  unfold reconcile
  rw [bind_of_error (look_of_error h)]

/-- So is everything if the range does not stand. -/
theorem reconcile_items_error {fault : Fault} (hitems : r.wanted contents f = .ok items)
    (h : r.items f = .error fault) : r.reconcile placed contents f = .error fault f := by
  unfold reconcile
  rw [bind_of_ok (look_of_ok hitems), bind_of_error (look_of_error h)]

/-- A reconciliation that succeeds was given contents that are accepted, for a range that stood. -/
theorem accepted_of_reconcile {blocks : List Block} (hf : f.Linked)
    (h : r.reconcile placed contents f = .ok blocks f') :
    ∃ items p before inside behind, r.wanted contents f = .ok items ∧
      r.Stands f p before inside behind := by
  cases hitems : r.wanted contents f with
  | error fault =>
      rw [reconcile_error hitems] at h
      exact nomatch h
  | ok items =>
      cases hinside : r.items f with
      | error fault =>
          rw [reconcile_items_error hitems hinside] at h
          exact nomatch h
      | ok inside =>
          obtain ⟨p, before, behind, hr⟩ := exists_stands hf hinside
          exact ⟨items, p, before, inside, behind, rfl, hr⟩

end Whole

end NodeRange

end LiveTemplate
