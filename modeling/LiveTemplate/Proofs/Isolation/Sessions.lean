import LiveTemplate.Proofs.Isolation.Placing
import LiveTemplate.Proofs.Session.Operations

/-!
# Sessions that stay out of a region

A session is aside from a region when the region is walled off and everything the session remembers
of instances and placed blocks is outside.  Whatever is then done with nodes and values from outside
leaves the region as it is and the session aside (`Live.StaysOut`).

Values reach a range by way of the arguments of an instance, the entries of a list and the blocks of
other instances; `Value.Outside` is handed down all along.
-/

namespace LiveTemplate

set_option autoImplicit false

open Forest

/-- The nodes by which an instance is known. -/
def Instance.handles (x : Instance) : List NodeId := x.block.handles ++ x.parts.flatMap Part.handles

theorem Instance.mem_handles_of_part {x : Instance} {p : Part} {n : NodeId} (hp : p ∈ x.parts)
    (hn : n ∈ p.handles) : n ∈ x.handles :=
  List.mem_append_right _ (List.mem_flatMap.mpr ⟨p, hp, hn⟩)

/-- A value is another one, or holds it at some depth. -/
inductive Value.Holds : Value → Value → Prop
  | self (v : Value) : Holds v v
  | list {items : List Value} {v w : Value} (hv : v ∈ items) (h : Holds v w) : Holds (.list items) w
  | tuple {items : List Value} {v w : Value} (hv : v ∈ items) (h : Holds v w) :
    Holds (.tuple items) w
  | dict {members : List (String × Value)} {key : String} {v w : Value}
    (hv : (key, v) ∈ members) (h : Holds v w) : Holds (.dict members) w

/-- A value holds only the given nodes, and only instances that there are. -/
structure Value.Within (hand : Set NodeId) (s : Session) (v : Value) : Prop where
  nodes : ∀ n, v.Holds (.node n) → n ∈ hand
  instances : ∀ i, v.Holds (.instance i) → i < s.instances.size

/-- A value holds nodes from outside of the region only. -/
abbrev Value.Outside (S : Set NodeId) (s : Session) (v : Value) : Prop :=
  v.Within {n | s.forest.Outside S n} s

namespace Session

/-- The region is walled off, and what is remembered of instances and placed blocks is outside. -/
structure Aside (S : Set NodeId) (s : Session) : Prop where
  walled : s.forest.Walled S
  instances : ∀ (i : InstanceId) (x : Instance), s.instances[i]? = some x →
    ∀ n ∈ x.handles, s.forest.Outside S n
  placed : ∀ r, ∀ b ∈ s.placedIn r, ∀ n ∈ b.handles, s.forest.Outside S n

/-- `s'` differs from `s` in engines and records only. -/
structure SameLive (s s' : Session) : Prop where
  forest_eq : s'.forest = s.forest
  instances_eq : s'.instances = s.instances
  placed_eq : s'.placed = s.placed
  templates_eq : s'.templates = s.templates
  statics_eq : s'.statics = s.statics

/-- `s'` goes on from `s` with changes outside of the region only. -/
structure Besides (S : Set NodeId) (s s' : Session) : Prop where
  aside : s'.Aside S
  forest : s.forest.Besides S s'.forest
  templates_eq : s'.templates = s.templates
  statics_eq : s'.statics = s.statics
  size_le : s.instances.size ≤ s'.instances.size

variable {S : Set NodeId} {s s' s'' : Session}

theorem SameLive.trans (h : s.SameLive s') (h' : s'.SameLive s'') : s.SameLive s'' where
  forest_eq := h'.forest_eq.trans h.forest_eq
  instances_eq := h'.instances_eq.trans h.instances_eq
  placed_eq := h'.placed_eq.trans h.placed_eq
  templates_eq := h'.templates_eq.trans h.templates_eq
  statics_eq := h'.statics_eq.trans h.statics_eq

theorem SameLive.modifyCache (h : s.SameLive s') (e : EngineId)
    (change : Cache TemplateKey Kept → Cache TemplateKey Kept) :
    s.SameLive (s'.modifyCache e change) := h.trans ⟨rfl, rfl, rfl, rfl, rfl⟩

theorem Besides.refl (h : s.Aside S) : s.Besides S s where
  aside := h
  forest := .refl h.walled
  templates_eq := rfl
  statics_eq := rfl
  size_le := Nat.le_refl _

theorem Besides.trans (h : s.Besides S s') (h' : s'.Besides S s'') : s.Besides S s'' where
  aside := h'.aside
  forest := h.forest.trans h'.forest
  templates_eq := h'.templates_eq.trans h.templates_eq
  statics_eq := h'.statics_eq.trans h.statics_eq
  size_le := Nat.le_trans h.size_le h'.size_le

theorem Besides.outside (h : s.Besides S s') {v : Value} (hv : v.Outside S s) : v.Outside S s' where
  nodes n hn := h.forest.outside (hv.nodes n hn)
  instances i hi := Nat.lt_of_lt_of_le (hv.instances i hi) h.size_le

namespace Aside

variable (h : s.Aside S)

include h

/-- The region does not notice what happens to engines and records. -/
theorem same (hsame : s.SameLive s') : s.Besides S s' where
  aside :=
    { walled := hsame.forest_eq ▸ h.walled
      instances := fun i x hx => by
        rw [hsame.forest_eq]
        exact h.instances i x (hsame.instances_eq ▸ hx)
      placed := fun r b hb => by
        rw [hsame.forest_eq]
        refine h.placed r b ?_
        unfold placedIn at hb ⊢
        rwa [hsame.placed_eq] at hb }
  forest := by
    rw [hsame.forest_eq]
    exact .refl h.walled
  templates_eq := hsame.templates_eq
  statics_eq := hsame.statics_eq
  size_le := Nat.le_of_eq (congrArg Array.size hsame.instances_eq.symm)

/-- Edits that stay outside leave the session aside. -/
theorem withForest {f : Forest} (hf : s.forest.Besides S f) :
    s.Besides S { s with forest := f } where
  aside :=
    { walled := hf.walled
      instances := fun i x hx n hn => hf.outside (h.instances i x hx n hn)
      placed := fun r b hb n hn => hf.outside (h.placed r b hb n hn) }
  forest := hf
  templates_eq := rfl
  statics_eq := rfl
  size_le := Nat.le_refl _

theorem remember (r : NodeRange) {blocks : List Block}
    (hblocks : ∀ b ∈ blocks, ∀ n ∈ b.handles, s.forest.Outside S n) :
    s.Besides S (s.remember r blocks) where
  aside :=
    { walled := h.walled
      instances := h.instances
      placed := fun r' b hb => by
        rw [placedIn_remember] at hb
        split at hb
        · exact hblocks b hb
        · exact h.placed r' b hb }
  forest := .refl h.walled
  templates_eq := rfl
  statics_eq := rfl
  size_le := Nat.le_refl _

theorem addInstance {x : Instance} (hx : ∀ n ∈ x.handles, s.forest.Outside S n) :
    s.Besides S (s.addInstance x) where
  aside :=
    { walled := h.walled
      instances := fun i y hy => by
        change (s.instances.push x)[i]? = some y at hy
        rw [Array.getElem?_push] at hy
        split at hy
        · exact Option.some.inj hy ▸ hx
        · exact h.instances i y hy
      placed := h.placed }
  forest := .refl h.walled
  templates_eq := rfl
  statics_eq := rfl
  size_le := by
    show s.instances.size ≤ (s.instances.push x).size
    rw [Array.size_push]
    exact Nat.le_succ _

theorem setArguments (i : InstanceId) (arguments : Value) :
    s.Besides S (s.setArguments i arguments) where
  aside :=
    { walled := h.walled
      instances := fun j x hx => by
        change (s.instances.modify i _)[j]? = some x at hx
        rw [Array.getElem?_modify] at hx
        split at hx
        · obtain ⟨y, hy, rfl⟩ := Option.map_eq_some_iff.mp hx
          exact h.instances j y hy
        · exact h.instances j x hx
      placed := h.placed }
  forest := .refl h.walled
  templates_eq := rfl
  statics_eq := rfl
  size_le := Nat.le_of_eq (size_setArguments s i arguments).symm

theorem instanceAt {i : InstanceId} (hi : i < s.instances.size) :
    ∀ n ∈ (s.instanceAt i).handles, s.forest.Outside S n := by
  refine h.instances i _ ?_
  rw [Session.instanceAt, Array.getD_eq_getD_getElem?, Array.getElem?_eq_getElem hi]
  rfl

/-! ## What values stand for -/

theorem contentOf {v : Value} (hv : v.Outside S s) : (s.contentOf v).Outside S s.forest := by
  cases v with
  | node n => exact hv.nodes n (.self _)
  | «instance» i =>
      intro n hn
      exact h.instanceAt (hv.instances i (.self _)) n (List.mem_append_left _ hn)
  | _ =>
      unfold Session.contentOf
      dsimp only
      first
        | exact trivial
        | split <;> exact trivial

/-- Entries stand for contents from outside. -/
theorem contentsOf {entries : List Value} (hentries : ∀ v ∈ entries, v.Outside S s)
    {contents : List Content} (hcontents : s.contentsOf entries = .ok contents) :
    ∀ c ∈ contents, c.Outside S s.forest := by
  induction entries generalizing contents with
  | nil =>
      cases hcontents
      exact nofun
  | cons v rest ih =>
      have hrest := fun {others : List Content} (hothers : s.contentsOf rest = .ok others) =>
        ih (fun w hw => hentries w (List.mem_cons_of_mem v hw)) hothers
      have hcons : ∀ {content : Except Fault Content},
          (∀ c, content = .ok c → c.Outside S s.forest) →
          (do return (← content) :: (← s.contentsOf rest) : Except Fault (List Content))
            = .ok contents → ∀ c ∈ contents, c.Outside S s.forest := by
        intro content hcontent heq c hc
        cases content with
        | error fault => exact nomatch heq
        | ok first =>
            cases hothers : s.contentsOf rest with
            | error fault =>
                rw [hothers] at heq
                exact nomatch heq
            | ok others =>
                rw [hothers] at heq
                cases heq
                rcases List.mem_cons.mp hc with rfl | hc
                · exact hcontent _ rfl
                · exact hrest hothers c hc
      have hplain : ∀ c, (s.plain v).map Content.text = .ok c → c.Outside S s.forest := by
        intro c hc
        cases hv : s.plain v with
        | error fault =>
            rw [hv] at hc
            exact nomatch hc
        | ok t =>
            rw [hv] at hc
            cases hc
            trivial
      have hlive : ∀ c, Except.ok (s.contentOf v) = (.ok c : Except Fault Content) →
          c.Outside S s.forest := fun c hc =>
        Except.ok.inj hc ▸ h.contentOf (hentries v (List.mem_cons_self ..))
      cases v with
      | null => exact hrest hcontents
      | bool b =>
          cases b with
          | false => exact hrest hcontents
          | true => exact hcons hplain hcontents
      | text | node | «instance» => exact hcons hlive hcontents
      | _ => exact hcons hplain hcontents

end Aside

end Session

namespace Value.Outside

variable {S : Set NodeId} {s : Session} {v w : Value}

theorem null : Value.null.Outside S s := ⟨nofun, nofun⟩

theorem text (t : String) : (Value.text t).Outside S s := ⟨nofun, nofun⟩

theorem part (p : Part) : (Value.part p).Outside S s := ⟨nofun, nofun⟩

theorem of_holds (hv : v.Outside S s) (h : ∀ u, w.Holds u → v.Holds u) : w.Outside S s :=
  ⟨fun n hn => hv.nodes n (h _ hn), fun i hi => hv.instances i (h _ hi)⟩

/-- What a value fills a range with is outside, too. -/
theorem rangeEntries (hv : v.Outside S s) : ∀ w ∈ Session.rangeEntries v, w.Outside S s := by
  intro w hw
  cases v with
  | list items => exact hv.of_holds fun u hu => .list hw hu
  | tuple items => exact hv.of_holds fun u hu => .tuple hw hu
  | _ => exact List.mem_singleton.mp hw ▸ hv

/-- And so is each of the arguments that a value stands for. -/
theorem argumentAt (hv : v.Outside S s) {index : Nat} (h : s.argumentAt v index = .ok (some w)) :
    w.Outside S s := by
  unfold Session.argumentAt at h
  split at h
  · cases h
  · split at h
    · obtain ⟨c, -, rfl⟩ := Option.map_eq_some_iff.mp (Except.ok.inj h)
      exact text _
    · cases h
    · rename_i entries _ hentries
      cases v with
      | list items =>
          cases hentries
          have hmem := List.mem_of_getElem? (Except.ok.inj h)
          exact hv.of_holds fun u hu => .list hmem hu
      | tuple items =>
          cases hentries
          have hmem := List.mem_of_getElem? (Except.ok.inj h)
          exact hv.of_holds fun u hu => .tuple hmem hu
      | parts i =>
          cases hentries
          obtain ⟨p, -, rfl⟩ := List.mem_map.mp (List.mem_of_getElem? (Except.ok.inj h))
          exact part p
      | dict members =>
          cases hentry : entries[index]? <;> rw [hentry] at h <;> cases h
      | node n =>
          cases hentry : entries[index]? <;> rw [hentry] at h <;> cases h
      | _ => exact nomatch hentries

end Value.Outside

namespace Live

open Session

variable {S : Set NodeId} {s : Session} {α β : Type}

/-- However the computation ends, it has changed the session outside of the region only. -/
def StaysOut (S : Set NodeId) (s : Session) (act : Live α) : Prop := s.Besides S (act.after s)

namespace StaysOut

theorem bind {act : Live α} {next : α → Live β} (h : StaysOut S s act)
    (hnext : ∀ a s', act s = .ok a s' → s.Besides S s' → StaysOut S s' (next a)) :
    StaysOut S s (act >>= next) := by
  unfold StaysOut at h ⊢
  cases hact : act s with
  | ok a s' =>
      rw [after_of_ok hact] at h
      rw [after_bind_of_ok hact]
      exact h.trans (hnext a s' hact h)
  | error fault s' =>
      rw [after_of_error hact] at h
      rw [after_bind_of_error hact]
      exact h

theorem get_bind {next : Session → Live β} (h : StaysOut S s (next s)) :
    StaysOut S s (get >>= next) := h

theorem modify {change : Session → Session} (h : s.Besides S (change s)) :
    StaysOut S s (modify change : Live PUnit) := h

variable (hs : s.Aside S)

include hs

theorem pure (a : α) : StaysOut S s (pure a : Live α) := .refl hs

theorem throw (fault : Fault) : StaysOut S s (throw fault : Live α) := .refl hs

/-- What comes behind a look goes on from the same session. -/
theorem look_bind {view : Session → Except Fault α} {next : α → Live β}
    (h : ∀ a, view s = .ok a → StaysOut S s (next a)) :
    StaysOut S s (Live.look view >>= next) := by
  unfold StaysOut
  cases hview : view s with
  | ok a =>
      rw [after_bind_of_ok (look_ok hview)]
      exact h a hview
  | error fault =>
      rw [after_bind_of_error (look_error hview)]
      exact .refl hs

theorem edit_bind {act : Edit α} {next : α → Live β} {result : Forest → α → Prop}
    (h : Edit.StaysOut S s.forest act result)
    (hnext : ∀ a f, s.Besides S { s with forest := f } → result f a →
      StaysOut S { s with forest := f } (next a)) : StaysOut S s (Live.edit act >>= next) := by
  unfold StaysOut
  unfold Edit.StaysOut at h
  cases hact : act s.forest with
  | ok a f =>
      rw [hact] at h
      rw [after_bind_of_ok (edit_ok hact)]
      have hbesides := hs.withForest h.1
      exact hbesides.trans (hnext a f hbesides h.2)
  | error fault f =>
      rw [hact] at h
      rw [after_bind_of_error (edit_error hact)]
      exact hs.withForest h

theorem edit {act : Edit α} (h : Edit.StaysOut S s.forest act Edit.anyway) :
    StaysOut S s (Live.edit act) := by
  unfold StaysOut
  unfold Edit.StaysOut at h
  cases hact : act s.forest with
  | ok a f =>
      rw [hact] at h
      rw [after_of_ok (edit_ok hact)]
      exact hs.withForest h.1
  | error fault f =>
      rw [hact] at h
      rw [after_of_error (edit_error hact)]
      exact hs.withForest h

/-! ## Filling parts -/

theorem replaceContents {r : NodeRange} (hr : s.forest.Outside S r.start) {contents : List Content}
    (hcontents : ∀ c ∈ contents, c.Outside S s.forest) :
    StaysOut S s (replaceContents r contents) := by
  refine get_bind (edit_bind hs ?_ fun blocks f h hblocks => modify (h.aside.remember r hblocks))
  exact .reconcile hs.walled hr (hs.placed r) hcontents

theorem setAttribute {e : NodeId} (he : s.forest.Outside S e) (name : String)
    (value : Option String) : StaysOut S s (setAttribute e name value) :=
  edit hs (.modify (hs.walled.setAttribute he.2 name value))

theorem fill {site : Site} (hsite : ∀ n ∈ site.handles, s.forest.Outside S n) {v : Value}
    (hv : v.Outside S s) : StaysOut S s (fill site v) := by
  cases site with
  | «attribute» e name =>
      exact look_bind hs fun value _ =>
        setAttribute hs (hsite e (List.mem_cons_self ..)) name value
  | element e =>
      cases v with
      | ref r => exact modify (hs.same ⟨rfl, rfl, rfl, rfl, rfl⟩)
      | callback tag => exact modify (hs.same ⟨rfl, rfl, rfl, rfl, rfl⟩)
      | _ => exact pure hs ()
  | range r =>
      refine look_bind hs fun contents hcontents => ?_
      exact replaceContents hs (hsite r.start (List.mem_cons_self ..))
        (hs.contentsOf hv.rangeEntries hcontents)

theorem fillFrom {parts : List Part} (hparts : PartsOutside S s.forest parts) {arguments : Value}
    (harguments : arguments.Outside S s) (index : Nat) :
    StaysOut S s (fillFrom arguments index parts) := by
  induction parts generalizing s index with
  | nil => exact pure hs ()
  | cons p rest ih =>
      refine look_bind hs fun entry hentry => ?_
      have hv : (entry.getD .null).Outside S s := by
        cases entry with
        | none => exact .null
        | some v => exact harguments.argumentAt hentry
      refine bind (fill hs (hparts p (List.mem_cons_self ..)) hv) fun _ s' _ h => ?_
      refine ih h.aside (fun q hq n hn => ?_) (h.outside harguments) (index + 1)
      exact h.forest.outside (hparts q (List.mem_cons_of_mem p hq) n hn)

/-! ## Instances -/

/-- An instance is made of new nodes only, and it is filled with what was handed in. -/
theorem instantiate (t : TemplateId) {arguments : Option Value}
    (harguments : ∀ v, arguments = some v → v.Outside S s) :
    StaysOut S s (instantiate t arguments) := by
  refine get_bind (edit_bind hs (.realize hs.walled _ _) fun made f h hmade => ?_)
  obtain ⟨home, parts⟩ := made
  obtain ⟨hhome, hparts⟩ := hmade
  refine bind (modify (h.aside.same ⟨rfl, rfl, rfl, rfl, rfl⟩)) fun _ s₁ hrun h₁ =>
    get_bind (get_bind ?_)
  cases hrun
  have hblock := h₁.aside.walled.handles_ofFragment hhome s.instances.size
  refine bind (modify (h₁.aside.addInstance fun n hn => ?_)) fun _ s₂ hrun h₂ => ?_
  · rcases List.mem_append.mp hn with hn | hn
    · exact hblock n hn
    · obtain ⟨p, hp, hn⟩ := List.mem_flatMap.mp hn
      exact hparts p hp n hn
  · cases hrun
    cases arguments with
    | none => exact pure h₂.aside _
    | some values =>
        have hvalues := h₂.outside (h₁.outside (h.outside (harguments values rfl)))
        exact bind (fillFrom h₂.aside hparts hvalues 0) fun _ s₃ _ h₃ => pure h₃.aside _

theorem update {i : InstanceId} {arguments : Value} (harguments : arguments.Outside S s) :
    StaysOut S s (update i arguments) := by
  refine get_bind ?_
  dsimp only
  split
  · rename_i hfills
    have hi : i < s.instances.size := by
      refine Nat.lt_of_not_le fun hle => ?_
      rw [instanceAt, Array.getD_eq_getD_getElem?, Array.getElem?_eq_none hle] at hfills
      cases hfills
    refine bind (modify (hs.setArguments i arguments)) fun _ s' _ h => ?_
    refine fillFrom h.aside (fun p hp n hn => ?_) (h.outside harguments) 0
    exact h.forest.outside (hs.instanceAt hi n (Instance.mem_handles_of_part hp hn))
  · exact throw hs _

/-! ## Assigning values -/

section Assigning

variable {r : NodeRange} {v : Value}

theorem assignAttribute {e : NodeId} (he : s.forest.Outside S e) (name : String) (v : Value) :
    StaysOut S s (assignAttribute e name v) := by
  refine get_bind ?_
  split
  · exact setAttribute hs he name none
  · exact setAttribute hs he name _
  · exact look_bind hs fun _ _ => throw hs _

variable (hr : s.forest.Outside S r.start) (hv : v.Outside S s)

include hr

theorem refuseOperand (v : Value) : StaysOut S s (refuseOperand r v) := by
  have hcount : Edit.StaysOut S s.forest (Edit.look r.parent >>= fun _ => Edit.countMutation)
      Edit.anyway :=
    (Edit.StaysOut.parentOf hs.walled hr).bind fun _ f h _ => .modify h.walled.counted
  exact edit_bind hs hcount fun _ f h _ => throw h.aside _

theorem refuseReference {n : NodeId} (hn : s.forest.Outside S n) :
    StaysOut S s (refuseReference r n) := by
  refine edit hs ((Edit.StaysOut.parentOf hs.walled hr).bind fun _ f₁ h₁ _ => ?_)
  refine (Edit.StaysOut.modify h₁.walled.counted).bind fun _ f₂ h₂ _ => ?_
  refine (Edit.StaysOut.detach h₂.walled ((h₁.trans h₂).outside hn)).bind fun _ f₃ h₃ _ => ?_
  exact .throw h₃.walled

include hv

theorem assignEntry (index : Int) : StaysOut S s (assignEntry r index v) := by
  cases v with
  | node n => exact edit hs (.setNth hs.walled hr (hv.nodes n (.self _)) index)
  | text t =>
      refine edit hs ((Edit.StaysOut.growText hs.walled t).bind fun n f h hn => ?_)
      exact .setNth h.walled (h.outside hr) hn index
  | _ => exact look_bind hs fun _ _ => throw hs _

theorem insertInRange (reference : Value) : StaysOut S s (insertInRange r v reference) := by
  unfold Live.insertInRange
  split
  · exact edit hs (.insertInto hs.walled hr (hv.nodes _ (.self _)) none)
  · exact edit hs (.insertInto hs.walled hr (hv.nodes _ (.self _)) _)
  · exact refuseReference hs hr (hv.nodes _ (.self _))
  · exact refuseOperand hs hr v

theorem removeInRange : StaysOut S s (removeInRange r v) := by
  unfold Live.removeInRange
  split
  · exact edit hs (.remove hs.walled hr (hv.nodes _ (.self _)))
  · exact refuseOperand hs hr v

theorem replaceInRange {old : Value} (hold : old.Outside S s) :
    StaysOut S s (replaceInRange r v old) := by
  unfold Live.replaceInRange
  split
  · exact edit hs (.replace hs.walled hr (hv.nodes _ (.self _)) (hold.nodes _ (.self _)))
  · exact refuseReference hs hr (hv.nodes _ (.self _))
  · exact refuseOperand hs hr v

end Assigning

end StaysOut

end Live

end LiveTemplate
