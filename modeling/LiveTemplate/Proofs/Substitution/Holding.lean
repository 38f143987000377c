import LiveTemplate.Proofs.Instance.Realized
import LiveTemplate.Proofs.Range.Reconciled
import LiveTemplate.Proofs.Substitution.Values

/-!
# What parts hold

An instance that is filled with plain data again and again keeps its shape: behind every range
start stand the texts that the range was given last, and the attributes of an element are those it
was made with, but for the ones that have been filled.  So everything there is to know about it is
what every site was given last, `held`, and `Holds` says how the forest follows from that.

`Holds.write` and `Holds.place` say what filling one part does.
-/

namespace LiveTemplate

set_option autoImplicit false

open Forest NodeRange

/-! ## A range that is given strings -/

theorem Content.allItems_map_text (f : Forest) (ts : List String) :
    Content.allItems f (ts.map .text) = .ok (ts.map .text) := by
  induction ts with
  | nil => rfl
  | cons t rest ih =>
      rw [List.map_cons, Content.allItems, ih]
      rfl

/-- Nodes that serve strings are texts of these characters. -/
theorem map_text?_of_serves {f : Forest} {ts : List String} {target : List NodeId}
    (h : List.Forall₂ (Serves f) (ts.map .text) target) : target.map f.text? = ts.map some := by
  induction ts generalizing target with
  | nil =>
      cases h
      rfl
  | cons t rest ih =>
      cases h with
      | cons htext hrest => rw [List.map_cons, List.map_cons, htext, ih hrest]

/-- A range that holds no instances is given strings: it holds their texts, and nothing else
changes. -/
theorem reconcile_texts {f : Forest} {r : NodeRange} {p : NodeId}
    {before inside behind : List NodeId} (hf : f.Linked)
    (hr : r.Stands f p before inside behind) (ts : List String) :
    ∃ target f', r.reconcile [] (ts.map .text) f = .ok [] f' ∧ f'.Linked ∧
      f.nextId ≤ f'.nextId ∧ (∀ n, n < f.nextId → f'.kind? n = f.kind? n) ∧
      target.map f'.text? = ts.map some ∧
      ∀ q, f'.children q =
        if q = p then before ++ r.start :: (target ++ r.stop :: behind) else f.children q := by
  have hnodes : (ts.map Item.text).filterMap Item.node? = [] := by
    rw [List.filterMap_map]
    exact List.filterMap_none ts
  have hblocks : (ts.map Content.text).filterMap Content.block? = [] := by
    rw [List.filterMap_map]
    exact List.filterMap_none ts
  have hwanted : r.wanted (ts.map .text) f = .ok (ts.map .text) := by
    refine wanted_eq_ok_iff.mpr ⟨Content.allItems_map_text f ts, ?_, ?_⟩ <;> rw [hnodes]
    · exact List.nodup_nil
    · exact nofun
  have hplaced : ∀ b ∈ ([] : List Block), f.isFragment b.home = true := nofun
  obtain ⟨target, f', hrun, hdone⟩ := reconcile_ok hf hr hwanted
    (by rw [hnodes]; exact nofun) hplaced
  rw [hblocks] at hrun
  have horigin : ∀ n ∈ target, n ∈ inside ∨ f.nextId ≤ n := by
    intro n hn
    rcases hdone.origin n hn with hwanted | hold | hnew
    · rw [hnodes] at hwanted
      exact nomatch hwanted
    · exact .inl hold.1
    · exact .inr hnew
  refine ⟨target, f', hrun, hdone.linked, hdone.nextId_le, hdone.kind?_eq,
    map_text?_of_serves hdone.serves, fun q => ?_⟩
  have hout : ∀ l : List NodeId, l ⊆ f.children q → (∀ n ∈ l, n ∉ inside) →
      l.filter (· ∉ target) = l := by
    intro l hl hnot
    rw [List.filter_eq_self]
    intro n hn
    refine decide_eq_true fun hmem => ?_
    rcases horigin n hmem with hin | hnew
    · exact hnot n hn hin
    · exact absurd (hf.lt_nextId (hl hn)) (Nat.not_lt.mpr hnew)
  have hhome : homecomings (handedBack f [] (ts.map .text) inside
      ((ts.map Item.text).filterMap Item.node?)) q = [] := rfl
  rw [hdone.children_eq, hhome, List.append_nil]
  by_cases hq : q = p
  · rw [if_pos hq, if_pos hq]
    subst hq
    have hmem : ∀ n, n ∈ before ∨ n ∈ behind → n ∈ f.children q := by
      intro n hn
      rw [hr]
      rcases hn with hn | hn <;> simp [hn]
    rw [hout before (fun n hn => hmem n (.inl hn))
        (fun n hn hin => (hr.ne_ends hf hin).2.2.1 hn),
      hout behind (fun n hn => hmem n (.inr hn))
        fun n hn hin => (hr.ne_ends hf hin).2.2.2 hn]
  · rw [if_neg hq, if_neg hq, hout _ (fun n hn => hn) fun n hn hin =>
      hq (hf.parent_unique hn (hr.mem_children hin))]

/-! ## The forest of a filled instance -/

/-- An attribute that was given a value last, if it was given one at all. -/
def attributeHeld (as : Attributes) (name : String) : Option Value → Option String
  | some v => v.attributeText
  | none => as.get? name

/-- The texts of a range that was given a value last, if it was given one at all. -/
def textsHeld : Option Value → List String
  | some v => v.texts
  | none => []

/-- `f` is the forest `made` with values at the sites: `held` says which. -/
structure Holds (made : Forest) (sites : List Site) (held : Site → Option Value) (f : Forest) :
    Prop where
  linked : f.Linked
  nextId_le : made.nextId ≤ f.nextId
  element : ∀ n e, made.element? n = some e → ∃ as : Attributes,
    f.kind? n = some (.element { e with attributes := as }) ∧
      ∀ name, as.get? name = attributeHeld e.attributes name (held (.attribute n name))
  other : ∀ n, n < made.nextId → made.element? n = none → f.kind? n = made.kind? n
  content : ∃ content : NodeId → List NodeId,
    (∀ q, f.children q = (made.children q).flatMap fun n => n :: content n) ∧
    (∀ r, .range r ∈ sites →
      (content r.start).map f.text? = (textsHeld (held (.range r))).map some) ∧
    ∀ n, content n ≠ [] → ∃ r, .range r ∈ sites ∧ r.start = n

namespace Holds

variable {old made f : Forest} {sites : List Site} {held : Site → Option Value}
  {r : NodeRange} {v : Value}

/-- An instance that has just been made holds nothing. -/
theorem of_made (hmade : made.Linked) : Holds made sites (fun _ => none) made where
  linked := hmade
  nextId_le := Nat.le_refl _
  element := fun _ e he => ⟨e.attributes, Edit.kind?_of_element? he, fun _ => rfl⟩
  other := fun _ _ _ => rfl
  content := ⟨fun _ => [], fun _ => (List.flatMap_singleton' _).symm, fun _ _ => rfl,
    fun _ hn => absurd rfl hn⟩

/-- The forest follows from what attributes and ranges hold. -/
theorem of_element (h : Holds made sites held f) (n : NodeId) :
    Holds made sites (Function.update held (.element n) (some v)) f := by
  have hattribute : ∀ m name, Function.update held (.element n) (some v) (.attribute m name)
      = held (.attribute m name) := fun m name => Function.update_of_ne (by simp) _ _
  have hrange : ∀ r, Function.update held (.element n) (some v) (.range r) = held (.range r) :=
    fun r => Function.update_of_ne (by simp) _ _
  refine ⟨h.linked, h.nextId_le, ?_, h.other, ?_⟩
  · simp only [hattribute]
    exact h.element
  · simp only [hrange]
    exact h.content

/-- An attribute is filled. -/
theorem write (h : Holds made sites held f) (n : NodeId) (name : String) :
    Holds made sites (Function.update held (.attribute n name) (some v))
      (f.setAttribute n name v.attributeText) where
  linked := h.linked.setAttribute n name _
  nextId_le := by
    rw [nextId_setAttribute]
    exact h.nextId_le
  element := by
    intro m e he
    obtain ⟨as, hkind, hattributes⟩ := h.element m e he
    rw [kind?_setAttribute, hkind]
    by_cases hm : n = m
    · subst hm
      rw [if_pos rfl]
      refine ⟨v.attributeText.elim (as.erase name) (as.set name), ?_, fun asked => ?_⟩
      · cases v.attributeText <;> rfl
      · by_cases hname : asked = name
        · subst hname
          rw [Function.update_self]
          show _ = v.attributeText
          cases v.attributeText with
          | some value => exact Attributes.get?_set_self as asked value
          | none => exact Attributes.get?_erase_self as asked
        · rw [Function.update_of_ne (by simpa using hname), ← hattributes asked]
          cases v.attributeText with
          | some value => exact Attributes.get?_set_of_ne as value hname
          | none => exact Attributes.get?_erase_of_ne as hname
    · rw [if_neg hm]
      refine ⟨as, rfl, fun asked => ?_⟩
      rw [hattributes, Function.update_of_ne (by simp [Ne.symm hm])]
  other := by
    intro m hm he
    rw [kind?_setAttribute, h.other m hm he]
    by_cases hnm : n = m
    · rw [if_pos hnm]
      rw [element?_eq] at he
      rcases hk : made.kind? m with _ | _ | _ | _ <;> rw [hk] at he <;> first | rfl | cases he
    · rw [if_neg hnm]
  content := by
    obtain ⟨content, hchildren, htexts, hstart⟩ := h.content
    refine ⟨content, fun q => ?_, fun r hr => ?_, hstart⟩
    · rw [(links_setAttribute f n name _ q).1, hchildren]
    · rw [Function.update_of_ne (by simp), ← htexts r hr]
      refine List.map_congr_left fun k _ => ?_
      unfold text?
      rw [leaf?_setAttribute]

/-- Every range of the instance stands, and can be given strings. -/
theorem place (hmade : Realized old made (rangesOf sites)) (h : Holds made sites held f)
    (hr : .range r ∈ sites) : ∃ f',
    r.reconcile [] (v.texts.map .text) f = .ok [] f' ∧
      Holds made sites (Function.update held (.range r) (some v)) f' := by
  obtain ⟨content, hchildren, htexts, hstart⟩ := h.content
  obtain ⟨-, -, -, p, front, back, -, hsplit⟩ := hmade.fresh r (mem_rangesOf.mpr hr)
  have hne : ∀ n ∈ front ++ r.stop :: back, n ≠ r.start := by
    have hnodup := hmade.linked.nodup_children p
    rw [hsplit] at hnodup
    rintro n hn rfl
    exact (List.nodup_middle.mp hnodup).notMem hn
  have hempty : content r.stop = [] := by
    by_contra hne
    obtain ⟨r', hr', hstart'⟩ := hstart _ hne
    exact (hmade.ranges_apart (mem_rangesOf.mpr hr') (mem_rangesOf.mpr hr)).1 hstart'
  have haround : ∀ content : NodeId → List NodeId, content r.stop = [] →
      (made.children p).flatMap (fun n => n :: content n)
        = (front.flatMap fun n => n :: content n) ++ r.start :: (content r.start ++
          r.stop :: back.flatMap fun n => n :: content n) := by
    intro content hempty
    rw [hsplit]
    simp [List.flatMap_append, List.flatMap_cons, hempty]
  have hstands : r.Stands f p (front.flatMap fun n => n :: content n) (content r.start)
      (back.flatMap fun n => n :: content n) := (hchildren p).trans (haround content hempty)
  obtain ⟨target, f', hrun, hlinked, hle, hkind, htarget, hplaced⟩ :=
    reconcile_texts h.linked hstands v.texts
  refine ⟨f', hrun, hlinked, Nat.le_trans h.nextId_le hle, ?_, ?_, ?_⟩
  · intro n e he
    obtain ⟨as, has, hattributes⟩ := h.element n e he
    refine ⟨as, ?_, fun name => ?_⟩
    · rw [hkind n (lt_nextId_of_kind? has), has]
    · rw [hattributes, Function.update_of_ne (by simp)]
  · intro n hn he
    rw [hkind n (Nat.lt_of_lt_of_le hn h.nextId_le), h.other n hn he]
  · have hother : ∀ n, n ≠ r.start → Function.update content r.start target n = content n :=
      fun n hn => Function.update_of_ne hn _ _
    have hsame : ∀ l : List NodeId, (∀ n ∈ l, n ≠ r.start) →
        (l.flatMap fun n => n :: Function.update content r.start target n)
          = l.flatMap fun n => n :: content n := by
      intro l hl
      refine List.flatMap_congr fun n hn => ?_
      rw [hother n (hl n hn)]
    refine ⟨Function.update content r.start target, fun q => ?_, fun r' hr' => ?_, ?_⟩
    · rw [hplaced]
      by_cases hq : q = p
      · rw [if_pos hq, hq, haround _ ((hother _ (hne _ (by simp))).trans hempty),
          hsame front (fun n hn => hne n (by simp [hn])),
          hsame back (fun n hn => hne n (by simp [hn])), Function.update_self]
      · rw [if_neg hq, hchildren, hsame]
        rintro n hn rfl
        exact hq (hmade.linked.parent_unique hn (by rw [hsplit]; simp))
    · by_cases hrr : r' = r
      · subst hrr
        rw [Function.update_self, Function.update_self, htarget]
        rfl
      · have hstart' : r'.start ≠ r.start := fun heq =>
          hrr ((hmade.ranges_apart (mem_rangesOf.mpr hr') (mem_rangesOf.mpr hr)).2 heq)
        rw [hother _ hstart', Function.update_of_ne (by simpa using hrr), ← htexts r' hr']
        refine List.map_congr_left fun k hk => text?_congr (hkind k ?_)
        have htext : f.text? k ∈ (textsHeld (held (.range r'))).map some :=
          htexts r' hr' ▸ List.mem_map_of_mem hk
        obtain ⟨t, -, ht⟩ := List.mem_map.mp htext
        exact lt_nextId_of_text? ht.symm
    · intro n hn
      by_cases hnr : n = r.start
      · exact ⟨r, hr, hnr.symm⟩
      · rw [hother n hnr] at hn
        exact hstart n hn

end Holds

end LiveTemplate
