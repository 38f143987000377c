import LiveTemplate.Proofs.Instance.Copied
import LiveTemplate.Proofs.Isolation.Sessions

/-!
# The static trees of templates

The static trees of a template are planted under a fragment of their own when it is compiled.
`Guarded` says that they stand in a region that nothing leads into and nothing leads out of.
Compiling a template adds its trees to the region (`Guarded.addTemplate`), and what stays out of the
region leaves all of them as they are (`Guarded.besides`).
-/

namespace LiveTemplate

set_option autoImplicit false

namespace Forest

variable {f f' : Forest}

mutual
/-- A planted tree is read back. -/
theorem Stand.trees_eq : ∀ {t : Tree} {n stop : NodeId} {depth : Nat}, Stand f t n stop →
    stop ≤ n + depth → f.treesWithin depth n = [t]
  | t, n, stop, 0, h, hdepth => absurd h.lt (Nat.not_lt.mpr hdepth)
  | .leaf l, n, stop, depth + 1, h, _ => treesWithin_leaf h.1 depth
  | .element e children, n, stop, depth + 1, h, hdepth => by
      have hbelow : StandAll f children (f.children n) (n + 1) stop := h.2
      have hdepth' : stop ≤ n + 1 + depth := by rwa [Nat.add_assoc, Nat.add_comm 1]
      rw [treesWithin_element h.1, hbelow.trees_eq hdepth']

theorem StandAll.trees_eq : ∀ {ts : List Tree} {ns : List NodeId} {first stop : NodeId}
    {depth : Nat}, StandAll f ts ns first stop → stop ≤ first + depth →
    ns.flatMap (f.treesWithin depth) = ts
  | [], _, _, _, _, h, _ => by
      rw [h.1]
      rfl
  | t :: rest, _, first, stop, depth, h, hdepth => by
      obtain ⟨mid, others, rfl, hfirst, hrest⟩ := h
      rw [List.flatMap_cons, hfirst.trees_eq (Nat.le_trans hrest.le hdepth),
        hrest.trees_eq (Nat.le_trans hdepth (Nat.add_le_add_right (Nat.le_of_lt hfirst.lt) depth))]
      rfl
end

/-- The trees stand below a new fragment, in any forest. -/
theorem standAll_plantFragment (f : Forest) (ts : List Tree) :
    StandAll (f.plantFragment ts) ts ((f.plantFragment ts).children f.nextId) (f.nextId + 1)
      (f.plantFragment ts).nextId := by
  have hstand := (planted_plantFragment (linked_loose f.nextId f.partsMade) ts).stand
  have hagree := (agreeFrom_loose f).plantFragment ts
  rw [nextId_loose, ← hagree.children_eq (Nat.le_refl _), ← hagree.nextId_eq] at hstand
  refine hstand.congr fun m hm _ => ?_
  have hle : f.nextId ≤ m := Nat.le_of_succ_le hm
  exact ⟨by rw [kind?, kind?, hagree.node?_eq m hle], hagree.children_eq hle⟩

/-- The nodes that were made before a number form a walled region as long as no node has it. -/
theorem walled_older (f : Forest) : f.Walled {n | n < f.nextId} where
  lt_nextId _ hn := hn
  leads n x hx hn := by
    rw [node?_eq_none_iff.mpr (Nat.le_of_not_lt hn)] at hx
    exact nomatch hx

/-- No node of the region is linked to one outside of it. -/
def Sealed (S : Set NodeId) (f : Forest) : Prop :=
  ∀ n ∈ S, ∀ x, f.node? n = some x → x.LeadsTo (· ∈ S)

/-- The nodes that have been made since. -/
def newSince (f f' : Forest) : Set NodeId := {n | f.nextId ≤ n ∧ n < f'.nextId}

section NewNodes

variable {S : Set NodeId} {n : NodeId} (hnew : f.Besides {n | n < f.nextId} f')

include hnew

/-- New nodes that were made with no regard to old ones are linked to each other only. -/
theorem Besides.new_leads {x : Node} (hn : f.nextId ≤ n) (hx : f'.node? n = some x) :
    x.LeadsTo (· ∈ newSince f f') :=
  (hnew.walled.leads n x hx (Nat.not_lt.mpr hn)).imp fun _ hm => ⟨Nat.le_of_not_lt hm.2, hm.1⟩

theorem Besides.outside_union (hn : f.Outside S n) : f'.Outside (S ∪ newSince f f') n :=
  ⟨Nat.lt_of_lt_of_le hn.1 hnew.nextId_le,
    fun hmem => hmem.elim hn.2 fun hmem => Nat.not_lt.mpr hmem.1 hn.1⟩

/-- So a region can be widened by them. -/
theorem Besides.walled_union (hf : f.Walled S) : f'.Walled (S ∪ newSince f f') where
  lt_nextId n hn :=
    hn.elim (fun hn => Nat.lt_of_lt_of_le (hf.lt_nextId n hn) hnew.nextId_le) fun hn => hn.2
  leads n x hx hn := by
    have hlt : n < f.nextId := by
      refine Nat.lt_of_not_le fun hge => hn (.inr ⟨hge, Nat.lt_of_not_le fun hle => ?_⟩)
      rw [node?_eq_none_iff.mpr hle] at hx
      exact nomatch hx
    rw [hnew.node?_eq n hlt] at hx
    exact (hf.leads n x hx fun hmem => hn (.inl hmem)).imp fun _ hm => hnew.outside_union hm

end NewNodes

/-- Nothing is in the way in a forest where links lead to nodes that there are. -/
theorem Linked.walled (hf : f.Linked) : f.Walled ∅ where
  lt_nextId _ hn := nomatch hn
  leads n x hx _ := by
    have hparent : f.parent? n = x.parent := by rw [parent?, hx]; rfl
    have hchildren : f.children n = x.children := by rw [children, hx]; rfl
    refine ⟨fun p hp => ⟨?_, nofun⟩, fun c hc => ⟨hf.lt_nextId (hchildren ▸ hc), nofun⟩⟩
    exact lt_nextId_of_mem_children (hf.mem_children_iff.mpr (hparent.trans hp))

end Forest

open Forest

namespace Session

/-- The trees of the template stand in the region, below a fragment that is in it as well. -/
def StandsIn (S : Set NodeId) (s : Session) (t : TemplateId) (template : Template) : Prop :=
  ∃ root ∈ S, s.statics[t]? = some root ∧
    (∀ n, root < n → n < root + 1 + Tree.sizeAll template.trees → n ∈ S) ∧
    StandAll s.forest template.trees (s.forest.children root) (root + 1)
      (root + 1 + Tree.sizeAll template.trees)

/-- The static trees of all templates stand in the region, which nothing leads into or out of. -/
structure Guarded (S : Set NodeId) (s : Session) : Prop where
  aside : s.Aside S
  sealed : s.forest.Sealed S
  size_eq : s.statics.size = s.templates.size
  stands : ∀ t template, s.templates[t]? = some template → s.StandsIn S t template

variable {S : Set NodeId} {s s' : Session}

/-- The trees still stand if their nodes are the same. -/
theorem StandsIn.congr {S' : Set NodeId} {t : TemplateId} {template : Template}
    (h : s.StandsIn S t template) (hsub : ∀ n ∈ S, n ∈ S')
    (hnode : ∀ n ∈ S, s'.forest.node? n = s.forest.node? n)
    (hstatics : ∀ root, s.statics[t]? = some root → s'.statics[t]? = some root) :
    s'.StandsIn S' t template := by
  obtain ⟨root, hroot, hstatic, hmem, hstand⟩ := h
  refine ⟨root, hsub root hroot, hstatics root hstatic, fun n hn hlt => hsub n (hmem n hn hlt), ?_⟩
  have hchildren : s'.forest.children root = s.forest.children root := by
    rw [children, children, hnode root hroot]
  rw [hchildren]
  refine hstand.congr fun n hn hlt => ?_
  have hsame := hnode n (hmem n hn hlt)
  exact ⟨by rw [kind?, kind?, hsame], by rw [children, children, hsame]⟩

namespace Guarded

variable (h : s.Guarded S)

include h

/-- The static trees of a template show as it was compiled. -/
theorem staticTrees_eq {t : TemplateId} {template : Template}
    (ht : s.templates[t]? = some template) : s.staticTrees t = template.trees := by
  obtain ⟨root, hroot, hstatic, hmem, hstand⟩ := h.stands t template ht
  have hgetD : s.statics.getD t 0 = root := by
    rw [Array.getD_eq_getD_getElem?, hstatic]
    rfl
  have hlt : root + Tree.sizeAll template.trees < s.forest.nextId := by
    refine h.aside.walled.lt_nextId _ ?_
    rcases Nat.eq_zero_or_pos (Tree.sizeAll template.trees) with hzero | hpos
    · rwa [hzero]
    · exact hmem _ (Nat.lt_add_of_pos_right hpos) (Nat.add_lt_add_right (Nat.lt_succ_self _) _)
  rw [staticTrees, hgetD]
  refine hstand.trees_eq (Nat.add_le_add_left (Nat.le_of_lt ?_) _)
  exact Nat.lt_of_le_of_lt (Nat.le_add_left _ _) hlt

/-- What stays out of the region leaves the static trees as they are. -/
theorem besides (hs : s.Besides S s') : s'.Guarded S where
  aside := hs.aside
  sealed n hn x hx := h.sealed n hn x (hs.forest.node?_eq n hn ▸ hx)
  size_eq := by rw [hs.statics_eq, hs.templates_eq, h.size_eq]
  stands t template ht := by
    rw [hs.templates_eq] at ht
    refine (h.stands t template ht).congr (fun _ hn => hn) hs.forest.node?_eq fun root hroot => ?_
    rw [hs.statics_eq, hroot]

/-- A template that is compiled brings its own static trees into the region. -/
theorem addTemplate (template : Template) : (s.addTemplate template).Guarded
    (S ∪ newSince s.forest (s.addTemplate template).forest) := by
  obtain ⟨hnew, hhome⟩ := (walled_older s.forest).plantFragment template.trees
  have hstand := standAll_plantFragment s.forest template.trees
  change s.forest.Besides _ (s.addTemplate template).forest at hnew
  change (s.addTemplate template).forest.Outside _ _ at hhome
  change StandAll (s.addTemplate template).forest _ _ _ (s.addTemplate template).forest.nextId
    at hstand
  exact
    { aside :=
        { walled := hnew.walled_union h.aside.walled
          instances := fun i x hx n hn => hnew.outside_union (h.aside.instances i x hx n hn)
          placed := fun r b hb n hn => hnew.outside_union (h.aside.placed r b hb n hn) }
      sealed := by
        intro n hn x hx
        by_cases hlt : n < s.forest.nextId
        · have hmem : n ∈ S := hn.resolve_right fun hnew => Nat.not_lt.mpr hnew.1 hlt
          rw [hnew.node?_eq n hlt] at hx
          exact (h.sealed n hmem x hx).imp fun m hm => .inl hm
        · exact (hnew.new_leads (Nat.le_of_not_lt hlt) hx).imp fun m hm => .inr hm
      size_eq := by
        show (s.statics.push _).size = (s.templates.push _).size
        rw [Array.size_push, Array.size_push, h.size_eq]
      stands := by
        intro t other ht
        change (s.templates.push template)[t]? = some other at ht
        rw [Array.getElem?_push] at ht
        split at ht
        · rename_i hlast
          cases ht
          refine ⟨s.forest.nextId, .inr ⟨Nat.le_refl _, hhome.1⟩, ?_, fun n hn hlt => ?_, ?_⟩
          · show (s.statics.push _)[t]? = _
            rw [Array.getElem?_push, h.size_eq, if_pos hlast]
          · rw [← hstand.stop_eq] at hlt
            exact .inr ⟨Nat.le_of_lt hn, hlt⟩
          · rw [← hstand.stop_eq]
            exact hstand
        · refine (h.stands t other ht).congr (fun n hn => .inl hn) (fun n hn => ?_)
            fun root hr => ?_
          · exact hnew.node?_eq n (h.aside.walled.lt_nextId n hn)
          · show (s.statics.push _)[t]? = _
            have hlt := (Array.getElem?_eq_some_iff.mp hr).1
            rw [Array.getElem?_push, if_neg (Nat.ne_of_lt hlt), hr] }

end Guarded

end Session

/-! ## Compiling -/

namespace Live

open Session

variable {s : Session}

/-- Compiling adds the template that it makes, if it makes one, and is otherwise on record only. -/
theorem after_compileFreshWith (parse : MarkupReader) (e : EngineId) (fragments : Value)
    (forced : Option Dialect) (s : Session) :
    s.SameLive ((compileFreshWith parse e fragments forced).after s) ∨
      ∃ template, (s.addTemplate template).SameLive
        ((compileFreshWith parse e fragments forced).after s) := by
  unfold compileFreshWith
  cases htexts : s.fragmentsOf fragments with
  | error fault =>
      rw [after_bind_of_error (look_error htexts)]
      exact .inl ⟨rfl, rfl, rfl, rfl, rfl⟩
  | ok texts =>
      rw [after_bind_of_ok (look_ok htexts), after_bind_of_ok (get_ok s)]
      cases Template.compileWith parse (s.engineAt e).settings texts forced with
      | mk result notices =>
          dsimp only
          rw [after_bind_of_ok (modify_ok _ s), notify_all]
          cases result with
          | error fault => exact .inl ⟨rfl, rfl, rfl, rfl, rfl⟩
          | ok template => exact .inr ⟨template, rfl, rfl, rfl, rfl, rfl⟩

theorem after_compileWith (parse : MarkupReader) (e : EngineId) (sequence : SequenceId)
    (fragments : Value) (forced : Option Dialect) (s : Session) :
    s.SameLive ((compileWith parse e sequence fragments forced).after s) ∨
      ∃ template, (s.addTemplate template).SameLive
        ((compileWith parse e sequence fragments forced).after s) := by
  have hfresh := after_compileFreshWith parse e fragments forced s
  unfold compileWith
  rw [after_bind_of_ok (get_ok s), after_bind_of_ok (get_ok s)]
  dsimp only
  split
  · split
    · exact .inl ⟨rfl, rfl, rfl, rfl, rfl⟩
    · cases hrun : compileFreshWith parse e fragments forced s with
      | error fault s' =>
          rw [after_of_error hrun] at hfresh
          rwa [after_bind_of_error hrun]
      | ok t s' =>
          rw [after_of_ok hrun] at hfresh
          rw [after_bind_of_ok hrun, after_bind_of_ok (modify_ok _ s'), after_pure]
          exact hfresh.imp (·.modifyCache e _) fun ⟨template, h⟩ => ⟨template, h.modifyCache e _⟩
  · exact hfresh

end Live

end LiveTemplate
