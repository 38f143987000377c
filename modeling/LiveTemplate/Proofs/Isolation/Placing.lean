import LiveTemplate.Proofs.Instance.Realized
import LiveTemplate.Proofs.Isolation.Walls
import LiveTemplate.Proofs.Range.Reconciled

/-!
# Ranges and instances outside of a region

A range whose start is outside of a walled region holds only nodes from outside, and so does a
block.  So no edit of the range gets at a node inside (`StaysOut.reconcile`), and neither does
making an instance, whose nodes are new (`StaysOut.realize`).
-/

namespace LiveTemplate

set_option autoImplicit false

open Forest

/-- The nodes by which a site is known. -/
def Site.handles : Site → List NodeId
  | .attribute e _ => [e]
  | .element e => [e]
  | .range r => [r.start, r.stop]

/-- The nodes by which a part is known. -/
def Part.handles (p : Part) : List NodeId := p.site.handles

/-- The nodes by which a block is known: its fragment and its first and last node. -/
def Block.handles (b : Block) : List NodeId :=
  b.home ::
    match b.ends with
    | none => []
    | some (first, last) => [first, last]

/-- A content is known by nodes outside of the region only. -/
def Content.Outside (S : Set NodeId) (f : Forest) : Content → Prop
  | .node n => f.Outside S n
  | .block b => ∀ n ∈ b.handles, f.Outside S n
  | _ => True

/-- All parts are known by nodes outside of the region only. -/
def PartsOutside (S : Set NodeId) (f : Forest) (parts : List Part) : Prop :=
  ∀ p ∈ parts, ∀ n ∈ p.handles, f.Outside S n

namespace Forest

variable {S : Set NodeId} {f : Forest} {n p : NodeId} {r : NodeRange}

theorem mem_of_mem_met {stop : NodeId} {ns : List NodeId} (h : n ∈ (Walk.upTo stop ns).met) :
    n ∈ ns := by
  induction ns with
  | nil => exact absurd h List.not_mem_nil
  | cons m ns ih =>
      unfold Walk.upTo at h
      split at h
      · exact absurd h List.not_mem_nil
      · rcases List.mem_cons.mp h with rfl | h
        · exact List.mem_cons_self ..
        · exact List.mem_cons_of_mem _ (ih h)

theorem mem_met_of_entries {w : Walk} {fault : Fault} {ns : List NodeId}
    (h : w.entries fault = .ok ns) (hn : n ∈ ns) : n ∈ w.met := by
  unfold Walk.entries at h
  split at h
  · cases h
    exact hn
  · exact nomatch h

namespace Walled

variable (hf : f.Walled S)

include hf

theorem range_parent (hr : f.Outside S r.start) (hp : r.parent f = .ok p) : f.Outside S p := by
  unfold NodeRange.parent at hp
  cases hstart : f.parent? r.start with
  | none =>
      rw [hstart] at hp
      exact nomatch hp
  | some q =>
      rw [hstart] at hp
      cases hstop : f.parent? r.stop with
      | none =>
          rw [hstop] at hp
          exact nomatch hp
      | some q' =>
          rw [hstop] at hp
          dsimp only at hp
          split at hp
          · exact Except.ok.inj hp ▸ hf.parent hr hstart
          · exact nomatch hp

theorem range_met (hr : f.Outside S r.start) (hn : n ∈ (r.walk f).met) : f.Outside S n :=
  hf.after hr (mem_of_mem_met hn)

theorem range_items (hr : f.Outside S r.start) {ns : List NodeId} (h : r.items f = .ok ns) :
    ∀ n ∈ ns, f.Outside S n := fun _ hn => hf.range_met hr (mem_met_of_entries h hn)

theorem range_item? (hr : f.Outside S r.start) {index : Int}
    (h : r.item? f index = .ok (some n)) : f.Outside S n := by
  unfold NodeRange.item? Walk.nth? at h
  split at h
  · cases h
  · split at h
    · rename_i heq
      cases h
      exact hf.range_met hr (List.mem_of_getElem? heq)
    · split at h <;> cases h

theorem range_nth (hr : f.Outside S r.start) {index : Int} (h : r.nth f index = .ok n) :
    f.Outside S n := by
  have hitem : ∀ place (entry : Option NodeId → Except Fault NodeId),
      (r.item? f place >>= entry) = .ok n → entry none = .error .noEntry →
        (∀ k, entry (some k) = .ok k) → f.Outside S n := by
    intro place entry h hnone hsome
    cases hfound : r.item? f place with
    | error fault =>
        rw [hfound] at h
        cases h
    | ok found =>
        rw [hfound] at h
        cases found with
        | none => cases hnone.symm.trans h
        | some k => exact hf.range_item? hr (Except.ok.inj ((hsome k).symm.trans h) ▸ hfound)
  unfold NodeRange.nth at h
  split at h
  · cases hsize : r.size f with
    | error fault =>
        rw [hsize] at h
        cases h
    | ok size =>
        rw [hsize] at h
        exact hitem _ _ h rfl fun _ => rfl
  · exact hitem _ _ h rfl fun _ => rfl

theorem roots {b : Block} (hb : ∀ n ∈ b.handles, f.Outside S n) {ns : List NodeId}
    (h : b.roots f = .ok ns) : ∀ n ∈ ns, f.Outside S n := by
  intro n hn
  have hmet := mem_met_of_entries h hn
  unfold Block.walk at hmet
  unfold Block.handles at hb
  cases hends : b.ends with
  | none =>
      rw [hends] at hmet
      exact nomatch hmet
  | some ends =>
      obtain ⟨first, last⟩ := ends
      rw [hends] at hmet hb
      have hfirst : f.Outside S first := hb first (by simp)
      have hwalk : ∀ k ∈ (Walk.upTo last (first :: f.after first)).met, f.Outside S k := by
        intro k hk
        rcases List.mem_cons.mp (mem_of_mem_met hk) with rfl | hk
        · exact hfirst
        · exact hf.after hfirst hk
      dsimp only at hmet
      split at hmet
      · rcases List.mem_append.mp hmet with hmet | hmet
        · exact hwalk n hmet
        · rw [List.mem_singleton.mp hmet]
          exact hb last (by simp)
      · exact hwalk n hmet

theorem handles_ofFragment {home : NodeId} (hhome : f.Outside S home) (owner : InstanceId) :
    ∀ n ∈ (Block.ofFragment owner home f).handles, f.Outside S n := by
  intro n hn
  rcases List.mem_cons.mp hn with rfl | hn
  · exact hhome
  · refine hf.child hhome ?_
    unfold Block.ofFragment at hn
    cases hchildren : f.children home with
    | nil =>
        rw [hchildren] at hn
        exact nomatch hn
    | cons first rest =>
        rw [hchildren] at hn
        rcases List.mem_cons.mp hn with rfl | hn
        · exact List.mem_cons_self ..
        · rw [List.mem_singleton.mp hn, List.getLastD_eq_getLast?]
          cases hlast : rest.getLast? with
          | none => exact List.mem_cons_self ..
          | some last => exact List.mem_cons_of_mem _ (List.mem_of_getLast? hlast)

/-- The nodes among the items that contents stand for. -/
theorem allItems {contents : List Content} (hcontents : ∀ c ∈ contents, c.Outside S f)
    {items : List Item} (h : Content.allItems f contents = .ok items) :
    ∀ n, Item.node n ∈ items → f.Outside S n := by
  intro n hn
  rcases Content.node_mem_allItems h hn with hnode | ⟨b, ns, hb, hroots, hmem⟩
  · exact hcontents _ hnode
  · exact hf.roots (hcontents _ hb) hroots _ hmem

end Walled

end Forest

namespace Edit.StaysOut

variable {S : Set NodeId} {f : Forest} {n : NodeId} {r : NodeRange}

section Ranges

variable (hf : f.Walled S) (hr : f.Outside S r.start)

include hf hr

theorem parentOf : StaysOut S f (Edit.look r.parent) fun f' p => f'.Outside S p :=
  look hf fun _ hp => hf.range_parent hr hp

theorem insertInto (hn : f.Outside S n) (reference : Option NodeId) :
    StaysOut S f (r.insertBefore n reference) anyway :=
  bind (parentOf hf hr) fun _ _ h hp => insertBefore h.walled hp (h.outside hn) _

theorem remove (hn : f.Outside S n) : StaysOut S f (r.remove n) anyway :=
  bind (parentOf hf hr) fun p _ h _ => removeChild h.walled (h.outside hn) p

theorem replace {old : NodeId} (hn : f.Outside S n) (hold : f.Outside S old) :
    StaysOut S f (r.replace n old) anyway :=
  bind (parentOf hf hr) fun _ _ h hp => replaceChild h.walled hp (h.outside hn) (h.outside hold)

theorem setNth (hn : f.Outside S n) (index : Int) :
    StaysOut S f (r.setNth index n) anyway := by
  have hitem : StaysOut S f (Edit.look (r.item? · index)) fun f' found =>
      ∀ old, found = some old → f'.Outside S old :=
    look hf fun found h old hold => hf.range_item? hr (hold ▸ h)
  refine bind hitem fun found f' h hfound => ?_
  cases found with
  | some old => exact replace h.walled (h.outside hr) (h.outside hn) (hfound old rfl)
  | none =>
      refine bind (look h.walled fun _ _ => trivial : StaysOut S f' _ anyway) fun _ f'' h' _ => ?_
      split
      · exact insertInto h'.walled ((h.trans h').outside hr) ((h.trans h').outside hn) none
      · exact throw h'.walled

theorem eraseNth (index : Int) : StaysOut S f (r.eraseNth index) anyway := by
  have hentry : StaysOut S f (Edit.look (r.nth · index)) fun f' n => f'.Outside S n :=
    look hf fun _ h => hf.range_nth hr h
  exact bind hentry fun n f' h hn => remove h.walled (h.outside hr) hn

theorem removeAll {ns : List NodeId} (hns : ∀ n ∈ ns, f.Outside S n) :
    StaysOut S f (r.removeAll ns) anyway := by
  induction ns generalizing f with
  | nil => exact pure hf trivial
  | cons n rest ih =>
      refine bind (remove hf hr (hns n (List.mem_cons_self ..))) fun _ f' h _ => ?_
      exact ih h.walled (h.outside hr) fun m hm => h.outside (hns m (List.mem_cons_of_mem n hm))

theorem arrange {ns : List NodeId} (hns : ∀ n ∈ ns, f.Outside S n) (cursor : Option NodeId) :
    StaysOut S f (r.arrange cursor ns) anyway := by
  induction ns generalizing f cursor with
  | nil => exact pure hf trivial
  | cons n rest ih =>
      have hrest : ∀ m ∈ rest, f.Outside S m := fun m hm => hns m (List.mem_cons_of_mem n hm)
      unfold NodeRange.arrange
      split
      · exact get_bind (ih hf hr hrest _)
      · refine bind (insertInto hf hr (hns n (List.mem_cons_self ..)) cursor) fun _ f' h _ => ?_
        exact ih h.walled (h.outside hr) (fun m hm => h.outside (hrest m hm)) cursor

end Ranges

theorem sendHome (hf : f.Walled S) {home : NodeId} (hhome : f.Outside S home)
    {ns : List NodeId} (hns : ∀ n ∈ ns, f.Outside S n) :
    StaysOut S f (NodeRange.sendHome home ns) anyway := by
  induction ns generalizing f with
  | nil => exact pure hf trivial
  | cons n rest ih =>
      refine bind (insertBefore hf hhome (hns n (List.mem_cons_self ..)) none) fun _ f' h _ => ?_
      exact ih h.walled (h.outside hhome) fun m hm => h.outside (hns m (List.mem_cons_of_mem n hm))

theorem sendAllHome (hf : f.Walled S) {released : List (Block × List NodeId)}
    (hreleased : ∀ entry ∈ released, f.Outside S entry.1.home ∧ ∀ n ∈ entry.2, f.Outside S n) :
    StaysOut S f (NodeRange.sendAllHome released) anyway := by
  induction released generalizing f with
  | nil => exact pure hf trivial
  | cons entry rest ih =>
      obtain ⟨hhome, hns⟩ := hreleased entry (List.mem_cons_self ..)
      refine bind (sendHome hf hhome hns) fun _ f' h _ => ih h.walled fun entry' hentry' => ?_
      obtain ⟨hhome', hns'⟩ := hreleased entry' (List.mem_cons_of_mem _ hentry')
      exact ⟨h.outside hhome', fun n hn => h.outside (hns' n hn)⟩

theorem nodesFor (hf : f.Walled S) {spare : List NodeId} (hspare : ∀ n ∈ spare, f.Outside S n)
    {items : List Item} (hitems : ∀ n, Item.node n ∈ items → f.Outside S n) :
    StaysOut S f (NodeRange.nodesFor spare items) fun f' ns => ∀ n ∈ ns, f'.Outside S n := by
  induction items generalizing f spare with
  | nil => exact pure hf nofun
  | cons item rest ih =>
      have hrest : ∀ n, Item.node n ∈ rest → f.Outside S n := fun n hn =>
        hitems n (List.mem_cons_of_mem _ hn)
      have hcons : ∀ {f' : Forest} {n : NodeId} {spare' : List NodeId}, f.Besides S f' →
          f'.Outside S n → (∀ m ∈ spare', f.Outside S m) → StaysOut S f'
            (NodeRange.nodesFor spare' rest >>= fun others => Pure.pure (n :: others))
            fun f'' ns => ∀ m ∈ ns, f''.Outside S m := by
        intro f' n spare' h hn hspare'
        have hothers := ih h.walled (fun m hm => h.outside (hspare' m hm))
          fun m hm => h.outside (hrest m hm)
        refine bind hothers fun others f'' h' hall => pure h'.walled fun m hm => ?_
        rcases List.mem_cons.mp hm with rfl | hm
        · exact h'.outside hn
        · exact hall m hm
      cases item with
      | node n => exact hcons (.refl hf) (hitems n (List.mem_cons_self ..)) hspare
      | text s =>
          refine get_bind ?_
          split
          · rename_i n hfound
            exact hcons (.refl hf) (hspare n (List.mem_of_find?_eq_some hfound))
              fun m hm => hspare m (List.mem_of_mem_erase hm)
          · exact bind (growText hf s) fun n f' h hn => hcons h hn hspare

/-- Reconciling a range stays outside, and so do the blocks that it remembers. -/
theorem reconcile (hf : f.Walled S) (hr : f.Outside S r.start) {placed : List Block}
    (hplaced : ∀ b ∈ placed, ∀ n ∈ b.handles, f.Outside S n) {contents : List Content}
    (hcontents : ∀ c ∈ contents, c.Outside S f) :
    StaysOut S f (r.reconcile placed contents) fun f' blocks =>
      ∀ b ∈ blocks, ∀ n ∈ b.handles, f'.Outside S n := by
  have hwanted : StaysOut S f (Edit.look (r.wanted contents)) fun f' items =>
      f' = f ∧ ∀ n, Item.node n ∈ items → f.Outside S n := look hf fun items h =>
    ⟨rfl, hf.allItems hcontents (NodeRange.wanted_eq_ok_iff.mp h).1⟩
  have hcurrent : StaysOut S f (Edit.look r.items) fun f' ns =>
      f' = f ∧ ∀ n ∈ ns, f.Outside S n := look hf fun ns h => ⟨rfl, hf.range_items hr h⟩
  refine bind hwanted fun items f' _ hitems => ?_
  obtain ⟨rfl, hitems⟩ := hitems
  refine bind hcurrent fun current f'' _ hcurrent => get_bind ?_
  obtain ⟨rfl, hcurrent⟩ := hcurrent
  dsimp only
  have hsome : ∀ {keep : NodeId → Bool}, ∀ n ∈ current.filter keep, f''.Outside S n :=
    fun n hn => hcurrent n (List.mem_filter.mp hn).1
  refine bind (nodesFor hf hsome hitems) fun target f₁ h₁ htarget => ?_
  refine bind (removeAll h₁.walled (h₁.outside hr) fun n hn => h₁.outside (hsome n hn))
    fun _ f₂ h₂ _ => ?_
  have h₁₂ := h₁.trans h₂
  refine bind (sendAllHome h₂.walled fun entry hentry => ?_) fun _ f₃ h₃ _ => ?_
  · obtain ⟨hb, hroots, -⟩ := NodeRange.mem_released.mp hentry
    exact ⟨h₁₂.outside (hplaced _ hb _ (List.mem_cons_self ..)),
      fun n hn => h₁₂.outside (hf.roots (hplaced _ hb) hroots n hn)⟩
  have h₁₃ := h₁₂.trans h₃
  refine bind (arrange h₃.walled (h₁₃.outside hr) (fun n hn =>
    (h₂.trans h₃).outside (htarget n (List.mem_filter.mp hn).1)) _) fun _ f₄ h₄ _ => get_bind ?_
  have h₁₄ := h₁₃.trans h₄
  refine bind (arrange h₄.walled (h₁₄.outside hr) (fun n hn =>
    ((h₂.trans h₃).trans h₄).outside (htarget n hn)) _) fun _ f₅ h₅ _ => ?_
  refine pure h₅.walled fun b hb n hn => ?_
  obtain ⟨c, hc, hblock⟩ := List.mem_filterMap.mp hb
  cases c with
  | block b' =>
      cases hblock
      exact (h₁₄.trans h₅).outside (hcontents _ hc n hn)
  | _ => exact nomatch hblock

/-! ## Binding markers -/

theorem makePart (hf : f.Walled S) {site : Site} (hsite : ∀ k ∈ site.handles, f.Outside S k) :
    StaysOut S f (Edit.makePart site) fun f' p => ∀ k ∈ p.handles, f'.Outside S k := by
  have hmade := hf.partsMade (f.partsMade + 1)
  exact of_ok rfl hmade fun k hk => hmade.outside (hsite k hk)

/-- The names in a marker stand for parts that are known by their element. -/
theorem bindNames (hf : f.Walled S) (hn : f.Outside S n) {known : List (List Char × Part)}
    (hknown : PartsOutside S f (known.map (·.2))) (names : List (List Char)) :
    StaysOut S f (Edit.bindNames n known names) (PartsOutside S) := by
  induction names generalizing f known with
  | nil => exact pure hf nofun
  | cons name rest ih =>
      have hcons : ∀ {f' : Forest} {p : Part} {known' : List (List Char × Part)},
          f.Besides S f' → (∀ k ∈ p.handles, f'.Outside S k) →
          PartsOutside S f' (known'.map (·.2)) → StaysOut S f'
            (Edit.bindNames n known' rest >>= fun others => Pure.pure (p :: others))
            (PartsOutside S) := by
        intro f' p known' h hp hknown'
        refine bind (ih h.walled (h.outside hn) hknown') fun others f'' h' hothers => ?_
        refine pure h'.walled fun q hq k hk => ?_
        rcases List.mem_cons.mp hq with rfl | hq
        · exact h'.outside (hp k hk)
        · exact hothers q hq k hk
      have hsite : ∀ k ∈ (Site.ofMarkedName n name).handles, f.Outside S k := by
        intro k hk
        unfold Site.ofMarkedName at hk
        split at hk
        all_goals
          rw [List.mem_singleton.mp hk]
          exact hn
      unfold Edit.bindNames
      cases hname : known.lookup name with
      | some p =>
          obtain ⟨front, back, heq, -⟩ := List.lookup_eq_some_iff.mp hname
          refine hcons (.refl hf) (hknown p ?_) hknown
          rw [heq, List.map_append]
          exact List.mem_append_right _ (List.mem_cons_self ..)
      | none =>
          refine bind (makePart hf hsite) fun p f' h hp => hcons h hp fun q hq k hk => ?_
          rcases List.mem_cons.mp hq with rfl | hq
          · exact hp k hk
          · exact h.outside (hknown q hq k hk)

theorem bindAttributes (hf : f.Walled S) (hn : f.Outside S n) (m : Markers) :
    StaysOut S f (Edit.bindAttributes m n) (PartsOutside S) := by
  refine get_bind ?_
  split
  · exact pure hf nofun
  · rename_i names hnames
    have hnone : PartsOutside S f (([] : List (List Char × Part)).map (·.2)) := nofun
    refine bind (bindNames hf hn hnone _) fun parts f₁ h₁ hparts => ?_
    refine bind (modify (h₁.walled.setAttribute hn.2 _ none)) fun _ f₂ h₂ _ => ?_
    exact pure h₂.walled fun p hp k hk => h₂.outside (hparts p hp k hk)

theorem bindRange (hf : f.Walled S) (hn : f.Outside S n) (m : Markers) :
    StaysOut S f (Edit.bindRange m n) (PartsOutside S) := by
  refine get_bind ?_
  split
  · rename_i parent _ hparent
    have hp := hf.parent hn hparent
    refine bind (grow hf _) fun start f₁ h₁ hstart => ?_
    refine bind (grow h₁.walled _) fun stop f₂ h₂ hstop => ?_
    have h₁₂ := h₁.trans h₂
    refine bind (replaceChild h₂.walled (h₁₂.outside hp) hstop (h₁₂.outside hn))
      fun _ f₃ h₃ _ => ?_
    refine bind (insertBefore h₃.walled ((h₁₂.trans h₃).outside hp)
      ((h₂.trans h₃).outside hstart) _) fun _ f₄ h₄ _ => ?_
    have hends : ∀ k ∈ (Site.range ⟨start, stop⟩).handles, f₄.Outside S k := by
      intro k hk
      rcases List.mem_cons.mp hk with rfl | hk
      · exact ((h₂.trans h₃).trans h₄).outside hstart
      · rw [List.mem_singleton.mp hk]
        exact (h₃.trans h₄).outside hstop
    refine bind (makePart h₄.walled hends) fun part f₅ h₅ hpart => pure h₅.walled ?_
    intro p hp
    rw [List.mem_singleton.mp hp]
    exact hpart
  · exact pure hf nofun

theorem bindAll (hf : f.Walled S) {places : List NodeId} (hplaces : ∀ n ∈ places, f.Outside S n)
    (m : Markers) : StaysOut S f (Edit.bindAll m places) (PartsOutside S) := by
  induction places generalizing f with
  | nil => exact pure hf nofun
  | cons n rest ih =>
      have hn := hplaces n (List.mem_cons_self ..)
      refine bind (bindAttributes hf hn m) fun noted f₁ h₁ hnoted => ?_
      refine bind (bindRange h₁.walled (h₁.outside hn) m) fun ranged f₂ h₂ hranged => ?_
      have h₁₂ := h₁.trans h₂
      refine bind (ih h₂.walled fun k hk => h₁₂.outside (hplaces k (List.mem_cons_of_mem n hk)))
        fun others f₃ h₃ hothers => pure h₃.walled ?_
      intro p hp k hk
      rcases List.mem_append.mp hp with hp | hp
      · rcases List.mem_append.mp hp with hp | hp
        · exact (h₂.trans h₃).outside (hnoted p hp k hk)
        · exact h₃.outside (hranged p hp k hk)
      · exact hothers p hp k hk

/-- All nodes of an instance are new, so they are outside. -/
theorem realize (hf : f.Walled S) (m : Markers) (ts : List Tree) :
    StaysOut S f (Edit.realize m ts)
      fun f' made => f'.Outside S made.1 ∧ PartsOutside S f' made.2 := by
  obtain ⟨hplanted, hhome⟩ := hf.plantFragment ts
  have hplant : StaysOut S f (MonadState.modifyGet fun f => ((), f.plantFragment ts))
      fun f' (_ : Unit) => f'.Outside S f.nextId := of_ok rfl hplanted hhome
  refine get_bind (bind hplant fun _ f₁ h₁ hhome => get_bind ?_)
  have hplaces : ∀ n ∈ f₁.marked m (f.nextId + 1), f₁.Outside S n := fun n hn =>
    have hn := (mem_marked.mp hn).1
    ⟨hn.2, fun hmem => Nat.lt_asymm (hf.lt_nextId n hmem) hn.1⟩
  refine bind (bindAll h₁.walled hplaces m) fun parts f₂ h₂ hparts => ?_
  exact pure h₂.walled ⟨h₂.outside hhome, hparts⟩

end Edit.StaysOut

end LiveTemplate
