import LiveTemplate.Proofs.Substitution.Holding
import LiveTemplate.Proofs.Substitution.Substitute

/-!
# Filling an instance again and again

Filling an instance gives every part a value, in order.  A part that stands in the list more than
once is given several, and holds the last of them: `lastFor`.  Since every part is given one, what
the parts hold behind a round does not depend on what they held before (`round_ok`), and behind
several rounds it is what the last one gave them (`instantiateAll_ok`).
-/

namespace LiveTemplate

set_option autoImplicit false

open Forest

/-- The value that a site is given last, where the sites of the parts are numbered from an index
on. -/
def lastFor (value : Nat → Value) (p : Site) (index : Nat) : List Site → Option Value
  | [] => none
  | first :: rest =>
    (lastFor value p (index + 1) rest).or (if first = p then some (value index) else none)

namespace Live

/-- Fills an instance with several lists of values, one after the other. -/
def updateAll (i : InstanceId) : List (List Value) → Live Unit
  | [] => return
  | values :: rest => do
    update i (.list values)
    updateAll i rest

/-- Makes an instance, fills it with a list of values and then with others, one after the
other. -/
def instantiateAll (t : TemplateId) (first : List Value) (later : List (List Value)) :
    Live InstanceId := do
  let i ← instantiate t (some (.list first))
  updateAll i later
  return i

end Live

/-! ## The last value of a site -/

section LastFor

variable {value : Nat → Value} {p : Site} {index : Nat} {ps qs : List Site}

theorem lastFor_cons {first : Site} {rest : List Site} :
    lastFor value p index (first :: rest) = (lastFor value p (index + 1) rest).or
      (if first = p then some (value index) else none) := rfl

theorem lastFor_eq_none_iff : lastFor value p index ps = none ↔ p ∉ ps := by
  induction ps generalizing index with
  | nil => simp [lastFor]
  | cons first rest ih =>
      rw [lastFor_cons, Option.or_eq_none_iff, ih, List.mem_cons, not_or, and_comm]
      by_cases hfirst : first = p
      · simp [hfirst]
      · simp [hfirst, Ne.symm hfirst]

theorem lastFor_append : lastFor value p index (ps ++ qs) =
    (lastFor value p (index + ps.length) qs).or (lastFor value p index ps) := by
  induction ps generalizing index with
  | nil => exact Option.or_none.symm
  | cons first rest ih =>
      rw [List.cons_append, lastFor_cons, lastFor_cons, ih, Option.or_assoc, List.length_cons,
        Nat.add_right_comm, Nat.add_assoc]

/-- A site that stands only in the middle is given its values there. -/
theorem lastFor_middle {front back : List Site} (hfront : p ∉ front) (hback : p ∉ back) :
    lastFor value p 0 (front ++ (ps ++ back)) = lastFor value p front.length ps := by
  rw [lastFor_append, lastFor_append, lastFor_eq_none_iff.mpr hfront,
    lastFor_eq_none_iff.mpr hback, Option.none_or, Option.or_none, Nat.zero_add]

end LastFor

/-! ## Rounds -/

/-- No range that is still to be made is remembered to hold anything, and the links agree. -/
structure Session.Sound (s : Session) : Prop where
  linked : s.forest.Linked
  placed_old : ∀ r, s.placedIn r ≠ [] → r.start < s.forest.nextId

theorem Session.Blank.sound {s : Session} (hs : s.Blank) : s.Sound where
  linked := hs.linked
  placed_old := by
    intro r hr
    unfold Session.placedIn at hr
    rw [hs.nothing_placed] at hr
    exact absurd rfl hr

/-- The instance `i` has its nodes below `home` and its parts at the given sites, and these hold
what `held` says. -/
structure Filling (s : Session) (i : InstanceId) (home : NodeId) (made : Forest)
    (sites : List Site) (held : Site → Option Value) : Prop where
  holds : Holds made sites held s.forest
  nothing_placed : ∀ r, .range r ∈ sites → s.placedIn r = []
  lt_size : i < s.instances.size
  home_eq : (s.instanceAt i).block.home = home
  sites_eq : (s.instanceAt i).sites = sites
  fills : (s.instanceAt i).fills = true

namespace Filling

variable {s : Session} {i : InstanceId} {home : NodeId} {old made : Forest} {sites : List Site}
  {held : Site → Option Value} {p : Site} {v : Value}

/-- Plain data can be filled in at every site. -/
theorem fill_ok (hmade : Realized old made (rangesOf sites))
    (h : Filling s i home made sites held) (hp : p ∈ sites) (hv : v.IsData) : ∃ s',
    Live.fill p v s = .ok () s' ∧
      Filling s' i home made sites (Function.update held p (some v)) := by
  rcases p with ⟨n, name⟩ | n | r
  · refine ⟨{ s with forest := s.forest.setAttribute n name v.attributeText }, ?_,
      h.holds.write n name, h.nothing_placed, h.lt_size, h.home_eq, h.sites_eq, h.fills⟩
    show (Live.look (·.attributeText? v) >>= fun value => Live.setAttribute n name value) s = _
    rw [bind_of_ok (Live.look_ok (Session.attributeText?_of_isData hv))]
    rfl
  · refine ⟨s, ?_, h.holds.of_element n, h.nothing_placed, h.lt_size, h.home_eq, h.sites_eq,
      h.fills⟩
    cases v <;> first | rfl | exact hv.elim
  · obtain ⟨f, hrun, hholds⟩ := h.holds.place (v := v) hmade hp
    refine ⟨{ s with forest := f }.remember r [], ?_, hholds, fun r' hr' => ?_, h.lt_size,
      h.home_eq, h.sites_eq, h.fills⟩
    · show (Live.look (·.contentsOf (Session.rangeEntries v)) >>= fun contents =>
        Live.replaceContents r contents) s = _
      rw [bind_of_ok (Live.look_ok (Session.contentsOf_rangeEntries hv))]
      rw [← h.nothing_placed r hp] at hrun
      rw [Live.replaceContents_ok hrun, h.nothing_placed r hp]
    · rw [Session.placedIn_remember]
      by_cases hrr : r' = r
      · rw [if_pos hrr]
      · rw [if_neg hrr]
        exact h.nothing_placed r' hr'

/-- Filling parts with a list of values gives each of them the last value that is its own. -/
theorem fillFrom_ok {values : List Value} (index : Nat) {ps : List Part}
    (hmade : Realized old made (rangesOf sites)) (h : Filling s i home made sites held)
    (hps : PartList.sites ps ⊆ sites) (hvalues : ∀ v ∈ values, v.IsData) : ∃ s',
    Live.fillFrom (.list values) index ps s = .ok () s' ∧
      Filling s' i home made sites fun p =>
        (lastFor (valueAt values) p index (PartList.sites ps)).or (held p) := by
  induction ps generalizing s index held with
  | nil => exact ⟨s, rfl, h⟩
  | cons p rest ih =>
      rw [PartList.sites_cons, List.cons_subset] at hps
      have hdata : (valueAt values index).IsData := by
        unfold valueAt
        cases hv : values[index]? with
        | none => trivial
        | some v => exact hvalues v (List.mem_of_getElem? hv)
      obtain ⟨s₁, hfill, h₁⟩ := h.fill_ok hmade hps.1 hdata
      obtain ⟨s₂, hrest, h₂⟩ := ih (index + 1) h₁ hps.2
      refine ⟨s₂, ?_, ?_⟩
      · show (Live.look (·.argumentAt (.list values) index) >>= fun v =>
          Live.fill p.site (v.getD .null) >>= fun _ =>
            Live.fillFrom (.list values) (index + 1) rest) s = _
        apply (bind_of_ok (Live.look_ok (Session.argumentAt_list values index))).trans
        exact (bind_of_ok hfill).trans hrest
      · convert h₂ using 2 with q
        rw [PartList.sites_cons, lastFor_cons, Option.or_assoc]
        congr 1
        by_cases hq : p.site = q
        · rw [if_pos hq, hq, Function.update_self]
          rfl
        · rw [if_neg hq, Function.update_of_ne (Ne.symm hq)]
          rfl

/-- Behind a round every part holds what the round gave it last, whatever it held before. -/
theorem round_ok {values : List Value} {parts : List Part} (hsites : PartList.sites parts = sites)
    (hmade : Realized old made (rangesOf sites)) (h : Filling s i home made sites held)
    (hheld : ∀ p, p ∉ sites → held p = none) (hvalues : ∀ v ∈ values, v.IsData) : ∃ s',
    Live.fillFrom (.list values) 0 parts s = .ok () s' ∧
      Filling s' i home made sites fun p => lastFor (valueAt values) p 0 sites := by
  subst hsites
  obtain ⟨s', hrun, h'⟩ := h.fillFrom_ok 0 hmade (List.Subset.refl _) hvalues
  refine ⟨s', hrun, ?_⟩
  convert h' using 2 with p
  by_cases hp : p ∈ PartList.sites parts
  · cases hlast : lastFor (valueAt values) p 0 (PartList.sites parts) with
    | none => exact absurd hp (lastFor_eq_none_iff.mp hlast)
    | some v => rfl
  · rw [hheld p hp, Option.or_none]

/-- An instance can be filled again. -/
theorem update_ok {values : List Value} (hmade : Realized old made (rangesOf sites))
    (h : Filling s i home made sites held) (hheld : ∀ p, p ∉ sites → held p = none)
    (hvalues : ∀ v ∈ values, v.IsData) : ∃ s', Live.update i (.list values) s = .ok () s' ∧
      Filling s' i home made sites fun p => lastFor (valueAt values) p 0 sites := by
  obtain ⟨stored, hstored⟩ := s.instanceAt_setArguments i i (.list values)
  have hagain : Filling (s.setArguments i (.list values)) i home made sites held := by
    refine ⟨h.holds, h.nothing_placed, ?_, ?_, ?_, ?_⟩
    · rw [s.size_setArguments]
      exact h.lt_size
    · rw [hstored]
      exact h.home_eq
    · rw [hstored]
      exact h.sites_eq
    · rw [hstored]
      exact h.fills
  obtain ⟨s', hrun, h'⟩ := hagain.round_ok h.sites_eq hmade hheld hvalues
  refine ⟨s', ?_, h'⟩
  unfold Live.update
  rw [bind_of_ok (get_ok s)]
  show (if (s.instanceAt i).fills = true then
    (modify (·.setArguments i (.list values)) : Live Unit) >>= fun _ =>
      Live.fillFrom (.list values) 0 (s.instanceAt i).parts else throw .nothingFills) s = _
  rw [if_pos h.fills, bind_of_ok (modify_ok _ s), hrun]

/-- An instance can be filled again and again; it holds what it was given last. -/
theorem updateAll_ok {first : List Value} {later : List (List Value)}
    (hmade : Realized old made (rangesOf sites))
    (h : Filling s i home made sites fun p => lastFor (valueAt first) p 0 sites)
    (hvalues : ∀ values ∈ later, ∀ v ∈ values, v.IsData) : ∃ s',
    Live.updateAll i later s = .ok () s' ∧ Filling s' i home made sites fun p =>
      lastFor (valueAt (later.getLastD first)) p 0 sites := by
  induction later generalizing s first with
  | nil => exact ⟨s, rfl, h⟩
  | cons values rest ih =>
      obtain ⟨s₁, hupdate, h₁⟩ := h.update_ok hmade (fun p hp => lastFor_eq_none_iff.mpr hp)
        (hvalues values (by simp))
      obtain ⟨s₂, hrest, h₂⟩ := ih h₁ fun values hmem => hvalues values (by simp [hmem])
      refine ⟨s₂, (bind_of_ok hupdate).trans hrest, ?_⟩
      rwa [List.getLastD_cons]

end Filling

/-- An instance is made and then filled any number of times: it holds what it was given last. -/
theorem instantiateAll_ok {s : Session} (hs : s.Sound) {t : TemplateId} {made : Forest}
    {parts : List Part} {first : List Value} {later : List (List Value)}
    (hrun : Edit.realize (s.templateAt t).markers (s.staticTrees t) s.forest
      = .ok (s.forest.nextId, parts) made)
    (hmade : Realized s.forest made (rangesOf (PartList.sites parts)))
    (hvalues : ∀ values ∈ first :: later, ∀ v ∈ values, v.IsData) : ∃ s',
    Live.instantiateAll t first later s = .ok s.instances.size s' ∧
      Filling s' s.instances.size s.forest.nextId made (PartList.sites parts) fun p =>
        lastFor (valueAt (later.getLastD first)) p 0 (PartList.sites parts) := by
  have hself := Session.instanceAt_created_self s t made s.forest.nextId parts
    (some (.list first))
  have hnew : Filling (s.created t made s.forest.nextId parts (some (.list first)))
      s.instances.size s.forest.nextId made (PartList.sites parts) fun _ => none := by
    refine ⟨Holds.of_made hmade.linked, fun r hr => ?_, ?_, ?_, ?_, ?_⟩
    · by_contra hne
      exact absurd (hs.placed_old r hne)
        (Nat.not_lt.mpr (Nat.le_of_lt (hmade.fresh r (mem_rangesOf.mpr hr)).1))
    · rw [Session.size_created]
      exact Nat.lt_succ_self _
    · rw [hself]
      rfl
    · rw [Instance.sites, hself]
    · rw [hself]
      rfl
  obtain ⟨s₁, hfill, h₁⟩ := hnew.round_ok rfl hmade (fun _ _ => rfl) (hvalues first (by simp))
  obtain ⟨s₂, hupdates, h₂⟩ :=
    h₁.updateAll_ok hmade fun values hmem => hvalues values (List.mem_cons_of_mem first hmem)
  refine ⟨s₂, ?_, h₂⟩
  have hmake : Live.instantiate t (some (.list first)) s = .ok s.instances.size s₁ := by
    rw [Live.instantiate_eq hrun]
    exact bind_of_ok hfill
  unfold Live.instantiateAll
  rw [bind_of_ok hmake, bind_of_ok hupdates]
  rfl

end LiveTemplate
