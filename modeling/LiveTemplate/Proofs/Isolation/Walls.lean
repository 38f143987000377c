import LiveTemplate.Binding
import LiveTemplate.Proofs.Forest.Linked
import Mathlib.Data.List.InsertIdx
import Mathlib.Data.Set.Basic

/-!
# Regions that edits stay out of

A region of a forest is walled when no node outside of it is linked to a node inside: `Walled S f`.
An edit that is only given nodes from outside then never gets at one inside.  It leaves the region
as it is, and the wall stands, however the edit ends.  `Edit.StaysOut` says so for one run, together
with what is known of its result.

New nodes are never part of a region, as these hold only nodes that were made before.
-/

namespace LiveTemplate

set_option autoImplicit false

/-- The parent and the children of a node are among the given nodes. -/
def Node.LeadsTo (x : Node) (ok : NodeId → Prop) : Prop :=
  (∀ p, x.parent = some p → ok p) ∧ ∀ c ∈ x.children, ok c

theorem Node.LeadsTo.imp {x : Node} {ok ok' : NodeId → Prop} (h : x.LeadsTo ok)
    (himp : ∀ n, ok n → ok' n) : x.LeadsTo ok' :=
  ⟨fun p hp => himp p (h.1 p hp), fun c hc => himp c (h.2 c hc)⟩

namespace Forest

/-- A node of the forest that is not in the region. -/
def Outside (S : Set NodeId) (f : Forest) (n : NodeId) : Prop := n < f.nextId ∧ n ∉ S

/-- No node outside of the region is linked to one inside. -/
structure Walled (S : Set NodeId) (f : Forest) : Prop where
  lt_nextId : ∀ n ∈ S, n < f.nextId
  leads : ∀ n x, f.node? n = some x → n ∉ S → x.LeadsTo (f.Outside S)

/-- `f'` is `f` with changes outside of the region only. -/
structure Besides (S : Set NodeId) (f f' : Forest) : Prop where
  walled : f'.Walled S
  nextId_le : f.nextId ≤ f'.nextId
  node?_eq : ∀ n ∈ S, f'.node? n = f.node? n

variable {S : Set NodeId} {f f' f'' : Forest} {n p q : NodeId}

namespace Besides

theorem refl (hf : f.Walled S) : f.Besides S f := ⟨hf, Nat.le_refl _, fun _ _ => rfl⟩

theorem trans (h : f.Besides S f') (h' : f'.Besides S f'') : f.Besides S f'' where
  walled := h'.walled
  nextId_le := Nat.le_trans h.nextId_le h'.nextId_le
  node?_eq n hn := (h'.node?_eq n hn).trans (h.node?_eq n hn)

theorem outside (h : f.Besides S f') (hn : f.Outside S n) : f'.Outside S n :=
  ⟨Nat.lt_of_lt_of_le hn.1 h.nextId_le, hn.2⟩

end Besides

namespace Walled

variable (hf : f.Walled S)

include hf

/-! ## Looking around outside -/

theorem parent (hn : f.Outside S n) (hp : f.parent? n = some p) : f.Outside S p := by
  unfold parent? at hp
  obtain ⟨x, hx, hxp⟩ := Option.bind_eq_some_iff.mp hp
  exact (hf.leads n x hx hn.2).1 p hxp

theorem child (hp : f.Outside S p) (hn : n ∈ f.children p) : f.Outside S n := by
  unfold children at hn
  cases hx : f.node? p with
  | none =>
      rw [hx] at hn
      exact nomatch hn
  | some x =>
      rw [hx] at hn
      exact (hf.leads p x hx hp.2).2 n hn

/-- The siblings of a node outside are outside. -/
theorem after (hn : f.Outside S n) {k : NodeId} (hk : k ∈ f.after n) : f.Outside S k := by
  unfold Forest.after at hk
  cases hp : f.parent? n with
  | none =>
      rw [hp] at hk
      exact nomatch hk
  | some p =>
      rw [hp] at hk
      exact hf.child (hf.parent hn hp)
        ((List.dropWhile_sublist _).subset (List.mem_of_mem_drop hk))

/-! ## Changing nodes outside -/

theorem modify (hn : n ∉ S) (change : Node → Node)
    (hchange : ∀ x : Node, x.LeadsTo (f.Outside S) → (change x).LeadsTo (f.Outside S)) :
    f.Besides S (f.modify n change) := by
  have houtside : ∀ k, f.Outside S k → (f.modify n change).Outside S k := fun k hk =>
    ⟨by rw [nextId_modify]; exact hk.1, hk.2⟩
  refine ⟨⟨fun k hk => ?_, fun k x hx hk => ?_⟩, ?_, fun k hk => ?_⟩
  · rw [nextId_modify]
    exact hf.lt_nextId k hk
  · rw [node?_modify] at hx
    split at hx
    · obtain ⟨y, hy, rfl⟩ := Option.map_eq_some_iff.mp hx
      exact (hchange y (hf.leads k y hy hk)).imp houtside
    · exact (hf.leads k x hx hk).imp houtside
  · rw [nextId_modify]
  · rw [node?_modify, if_neg (by rintro rfl; exact hn hk)]

theorem grow (kind : NodeKind) : f.Besides S (f.grow kind) ∧ (f.grow kind).Outside S f.nextId := by
  have hsize : f.nextId < (f.grow kind).nextId := by
    rw [nextId_grow]
    exact Nat.lt_succ_self _
  refine ⟨⟨⟨fun k hk => Nat.lt_trans (hf.lt_nextId k hk) hsize, fun k x hx hk => ?_⟩,
    Nat.le_of_lt hsize, fun k hk => ?_⟩, hsize, fun hk => Nat.lt_irrefl _ (hf.lt_nextId _ hk)⟩
  · by_cases hnew : k = f.nextId
    · rw [hnew, node?_grow_self] at hx
      cases hx
      exact ⟨nofun, nofun⟩
    · rw [node?_grow_of_ne _ hnew] at hx
      exact (hf.leads k x hx hk).imp fun m hm => ⟨Nat.lt_trans hm.1 hsize, hm.2⟩
  · exact node?_grow_of_ne _ (Nat.ne_of_lt (hf.lt_nextId k hk))

theorem counted : f.Besides S f.counted :=
  ⟨⟨hf.lt_nextId, hf.leads⟩, Nat.le_refl _, fun _ _ => rfl⟩

theorem partsMade (made : PartId) : f.Besides S { f with partsMade := made } :=
  ⟨⟨hf.lt_nextId, hf.leads⟩, Nat.le_refl _, fun _ _ => rfl⟩

theorem detach (hn : f.Outside S n) : f.Besides S (f.detach n) := by
  unfold Forest.detach
  cases hp : f.parent? n with
  | none => exact .refl hf
  | some p =>
      have hout := hf.modify (hf.parent hn hp).2
        (fun x => { x with children := x.children.erase n })
        fun x hx => ⟨hx.1, fun c hc => hx.2 c (List.mem_of_mem_erase hc)⟩
      exact hout.trans (hout.walled.modify hn.2 _ fun x hx => ⟨nofun, hx.2⟩)

theorem attach (hp : f.Outside S p) (hn : f.Outside S n) (place : Nat) :
    f.Besides S (f.attach p place n) := by
  have hin := hf.modify hp.2
    (fun x => { x with children := x.children.insertIdx place n }) fun x hx => by
      refine ⟨hx.1, fun c hc => ?_⟩
      rcases List.eq_or_mem_of_mem_insertIdx hc with rfl | hc
      · exact hn
      · exact hx.2 c hc
  refine hin.trans (hin.walled.modify hn.2 _ fun x hx => ⟨fun q hq => ?_, hx.2⟩)
  exact Option.some.inj hq ▸ hin.outside hp

theorem setAttribute (hn : n ∉ S) (name : String) (value : Option String) :
    f.Besides S (f.setAttribute n name value) := by
  refine hf.modify hn _ fun x hx => ?_
  split <;> exact hx

end Walled

/-! ## Planting trees -/

mutual
theorem Walled.plant : ∀ {f : Forest} {q : NodeId} (t : Tree), f.Walled S → f.Outside S q →
    f.Besides S (f.plant q t)
  | f, q, .leaf l, hf, hq => by
      obtain ⟨hgrown, hnew⟩ := hf.grow (.leaf l)
      exact hgrown.trans (hgrown.walled.attach (hgrown.outside hq) hnew _)
  | f, q, .element e children, hf, hq => by
      obtain ⟨hgrown, hnew⟩ := hf.grow (.element e)
      have hin := hgrown.trans (hgrown.walled.attach (hgrown.outside hq) hnew
        ((f.grow (.element e)).children q).length)
      have hself : ((f.grow (.element e)).attachLast q f.nextId).Outside S f.nextId :=
        (hgrown.walled.attach (hgrown.outside hq) hnew _).outside hnew
      exact hin.trans (Walled.plantAll children hin.walled hself)

theorem Walled.plantAll : ∀ {f : Forest} {q : NodeId} (ts : List Tree), f.Walled S →
    f.Outside S q → f.Besides S (f.plantAll q ts)
  | _, _, [], hf, _ => .refl hf
  | _, _, t :: rest, hf, hq => by
      have hfirst := Walled.plant t hf hq
      exact hfirst.trans (Walled.plantAll rest hfirst.walled (hfirst.outside hq))
end

theorem Walled.plantFragment (hf : f.Walled S) (ts : List Tree) :
    f.Besides S (f.plantFragment ts) ∧ (f.plantFragment ts).Outside S f.nextId := by
  obtain ⟨hgrown, hnew⟩ := hf.grow .fragment
  have hplanted := Walled.plantAll ts hgrown.walled hnew
  exact ⟨hgrown.trans hplanted, hplanted.outside hnew⟩

end Forest

/-! ## Edits that stay out of a region -/

namespace Edit

open Forest

variable {S : Set NodeId} {f : Forest} {n p : NodeId} {α β : Type}

/-- However the run ends, it has changed the forest outside of the region only.  If it succeeds, its
result is as said. -/
def StaysOut (S : Set NodeId) (f : Forest) (act : Edit α) (result : Forest → α → Prop) : Prop :=
  match act f with
  | .ok a f' => f.Besides S f' ∧ result f' a
  | .error _ f' => f.Besides S f'

/-- Nothing is said of a result. -/
abbrev anyway : Forest → α → Prop := fun _ _ => True

namespace StaysOut

theorem of_ok {act : Edit α} {a : α} {f' : Forest} {result : Forest → α → Prop}
    (h : act f = .ok a f') (hf : f.Besides S f') (hresult : result f' a) :
    StaysOut S f act result := by
  unfold StaysOut
  rw [h]
  exact ⟨hf, hresult⟩

theorem of_error {act : Edit α} {fault : Fault} {f' : Forest} {result : Forest → α → Prop}
    (h : act f = .error fault f') (hf : f.Besides S f') : StaysOut S f act result := by
  unfold StaysOut
  rw [h]
  exact hf

theorem pure {a : α} {result : Forest → α → Prop} (hf : f.Walled S) (h : result f a) :
    StaysOut S f (pure a) result := of_ok rfl (.refl hf) h

theorem throw {fault : Fault} {result : Forest → α → Prop} (hf : f.Walled S) :
    StaysOut S f (throw fault : Edit α) result := of_error rfl (.refl hf)

theorem modify {change : Forest → Forest} (h : f.Besides S (change f)) :
    StaysOut S f (modify change : Edit Unit) anyway := of_ok rfl h trivial

theorem look {view : Forest → Except Fault α} {result : Forest → α → Prop} (hf : f.Walled S)
    (h : ∀ a, view f = .ok a → result f a) : StaysOut S f (look view) result := by
  cases hview : view f with
  | ok a => exact of_ok (look_of_ok hview) (.refl hf) (h a hview)
  | error fault => exact of_error (look_of_error hview) (.refl hf)

/-- What comes next starts from a forest that is changed outside of the region only. -/
theorem bind {act : Edit α} {next : α → Edit β} {result : Forest → α → Prop}
    {result' : Forest → β → Prop} (h : StaysOut S f act result)
    (hnext : ∀ a f', f.Besides S f' → result f' a → StaysOut S f' (next a) result') :
    StaysOut S f (act >>= next) result' := by
  unfold StaysOut at h
  cases hact : act f with
  | ok a f' =>
      rw [hact] at h
      have hafter := hnext a f' h.1 h.2
      unfold StaysOut at hafter ⊢
      rw [bind_of_ok hact]
      cases hrun : next a f' with
      | ok b f'' =>
          rw [hrun] at hafter
          exact ⟨h.1.trans hafter.1, hafter.2⟩
      | error fault f'' =>
          rw [hrun] at hafter
          exact h.1.trans hafter
  | error fault f' =>
      rw [hact] at h
      unfold StaysOut
      rw [bind_of_error hact]
      exact h

theorem get_bind {next : Forest → Edit β} {result : Forest → β → Prop}
    (h : StaysOut S f (next f) result) : StaysOut S f (get >>= next) result := h

variable (hf : f.Walled S)

include hf

theorem grow (kind : NodeKind) : StaysOut S f (grow kind) fun f' n => f'.Outside S n :=
  of_ok (grow_ok kind f) (hf.grow kind).1 (hf.grow kind).2

theorem growText (s : String) : StaysOut S f (growText s) fun f' n => f'.Outside S n := by
  refine bind (modify ⟨⟨hf.lt_nextId, hf.leads⟩, Nat.le_refl _, fun _ _ => rfl⟩) fun _ f' h _ => ?_
  exact grow h.walled _

theorem detach (hn : f.Outside S n) : StaysOut S f (detach n) anyway := modify (hf.detach hn)

theorem position (p child : NodeId) : StaysOut S f (position p child) anyway :=
  look hf fun _ _ => trivial

theorem insertNode (hp : f.Outside S p) (hn : f.Outside S n) (place : Nat) :
    StaysOut S f (insertNode p place n) anyway := by
  refine get_bind ?_
  dsimp only
  split
  · exact throw hf
  · split
    · refine bind (position hf p n) fun old f' h _ => ?_
      split
      · exact pure h.walled trivial
      · refine bind (detach h.walled (h.outside hn)) fun _ f'' h' _ => ?_
        exact modify (h'.walled.attach ((h.trans h').outside hp) ((h.trans h').outside hn) _)
    · refine bind (detach hf hn) fun _ f' h _ => ?_
      exact modify (h.walled.attach (h.outside hp) (h.outside hn) _)

theorem insertNodes {ns : List NodeId} (hp : f.Outside S p) (hns : ∀ n ∈ ns, f.Outside S n)
    (place : Nat) : StaysOut S f (insertNodes p place ns) anyway := by
  induction ns generalizing f place with
  | nil => exact pure hf trivial
  | cons n rest ih =>
      refine bind (insertNode hf hp (hns n (List.mem_cons_self ..)) place) fun _ f' h _ => ?_
      exact ih h.walled (h.outside hp)
        (fun m hm => h.outside (hns m (List.mem_cons_of_mem n hm))) (place + 1)

theorem insert (hp : f.Outside S p) (hn : f.Outside S n) (place : Nat) :
    StaysOut S f (insert p place n) anyway := by
  refine get_bind ?_
  split
  · exact throw hf
  · split
    · exact insertNodes hf hp (fun m hm => hf.child hn hm) place
    · exact insertNode hf hp hn place

theorem insertBefore (hp : f.Outside S p) (hn : f.Outside S n) (reference : Option NodeId) :
    StaysOut S f (insertBefore p n reference) anyway := by
  refine bind (modify hf.counted) fun _ f₁ h₁ _ => ?_
  refine bind (detach h₁.walled (h₁.outside hn)) fun _ f₂ h₂ _ => ?_
  have h := h₁.trans h₂
  cases reference with
  | none => exact get_bind (insert h₂.walled (h.outside hp) (h.outside hn) _)
  | some child =>
      refine bind (position h₂.walled p child) fun place f₃ h₃ _ => ?_
      exact insert h₃.walled ((h.trans h₃).outside hp) ((h.trans h₃).outside hn) place

theorem replaceChild {old : NodeId} (hp : f.Outside S p) (hn : f.Outside S n)
    (hold : f.Outside S old) : StaysOut S f (replaceChild p n old) anyway := by
  refine bind (modify hf.counted) fun _ f₁ h₁ _ => ?_
  refine bind (detach h₁.walled (h₁.outside hn)) fun _ f₂ h₂ _ => ?_
  refine bind (position h₂.walled p old) fun place f₃ h₃ _ => ?_
  have h := (h₁.trans h₂).trans h₃
  refine bind (detach h₃.walled (h.outside hold)) fun _ f₄ h₄ _ => ?_
  exact insert h₄.walled ((h.trans h₄).outside hp) ((h.trans h₄).outside hn) place

theorem removeChild (hn : f.Outside S n) (p : NodeId) :
    StaysOut S f (removeChild p n) anyway := by
  refine bind (modify hf.counted) fun _ f₁ h₁ _ => get_bind ?_
  split
  · exact detach h₁.walled (h₁.outside hn)
  · exact throw h₁.walled

end StaysOut

end Edit

end LiveTemplate
