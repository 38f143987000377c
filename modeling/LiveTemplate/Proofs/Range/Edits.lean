import LiveTemplate.Proofs.Range.Reads
import LiveTemplate.Proofs.Session.Calls
import LiveTemplate.Session.Assign

/-!
# Editing a range as a list

A range that stands can be edited node by node: nodes are put in front of others, take the place of
others or are taken out, and indexes may say which.  `RangeEdit` comprises these calls, and
`RangeEdit.onList` says what a call of that name does to a list.

Once its index has been looked up, each of them comes down to one of three steps among the children
of the parent (`RangeStep`, `run_eq`), or fails before it has touched any of them.  A step that
takes in a node from outside the range, and goes by an entry of it, edits the range like a list and
leaves everything else in order (`Edited`).

Main statement: `range_edited_as_list`, for every call and every index.
-/

namespace LiveTemplate

set_option autoImplicit false

open Forest NodeRange

/-! ## Calls that edit a range -/

/-- A call that edits a range. -/
inductive RangeEdit
  /-- A node is inserted or moved in front of another one, or to the end of the range. -/
  | insertBefore (n : NodeId) (reference : Option NodeId)
  | remove (n : NodeId)
  | replace (new old : NodeId)
  /-- A value is put at an index: in the place of the entry there, or behind the last one. -/
  | assign (index : Int) (v : Value)
  /-- The entry at an index is taken out. -/
  | erase (index : Int)

/-- What a call does among the children of the parent. -/
inductive RangeStep
  /-- A node is moved in front of a child. -/
  | before (n anchor : NodeId)
  /-- A node takes the place of a child. -/
  | instead (n anchor : NodeId)
  | out (n : NodeId)

namespace RangeEdit

/-- Does the call. -/
def run (r : NodeRange) : RangeEdit → Live Unit
  | .insertBefore n none => Live.insertInRange r (.node n) .null
  | .insertBefore n (some m) => Live.insertInRange r (.node n) (.node m)
  | .remove n => Live.removeInRange r (.node n)
  | .replace new old => Live.replaceInRange r (.node new) (.node old)
  | .assign index v => Live.assignEntry r index v
  | .erase index => Live.edit (r.eraseNth index)

/-- The call is given nodes, or a string to assign. -/
def Proper : RangeEdit → Prop
  | .assign _ v => (∃ n, v = .node n) ∨ ∃ t, v = .text t
  | _ => True

/-- The string that a call makes a text for. -/
def text? : RangeEdit → Option String
  | .assign _ (.text t) => some t
  | _ => none

/-- The node that a call is given to take into the range. -/
def taken : RangeEdit → List NodeId
  | .insertBefore n _ | .replace n _ | .assign _ (.node n) => [n]
  | _ => []

/-- The nodes that a call is given to go by. -/
def named : RangeEdit → List NodeId
  | .insertBefore _ reference => reference.toList
  | .remove n | .replace _ n => [n]
  | _ => []

/-- The node that is assigned for a value: a new text for a string. -/
def assigned (fresh : NodeId) : Value → NodeId
  | .node n => n
  | _ => fresh

/-- The node that a call puts into the range, if any. -/
def put (fresh : NodeId) : RangeEdit → List NodeId
  | .insertBefore n _ | .replace n _ => [n]
  | .assign _ v => [assigned fresh v]
  | _ => []

/-- What the call does to a list. -/
def onList (fresh : NodeId) (inside : List NodeId) : RangeEdit → Except Fault (List NodeId)
  | .insertBefore n none => .ok (inside ++ [n])
  | .insertBefore n (some m) => .ok (inside.insertIdx (inside.idxOf m) n)
  | .remove n => .ok (inside.erase n)
  | .replace new old => .ok (inside.set (inside.idxOf old) new)
  | .assign index v =>
    if 0 ≤ index ∧ index < inside.length then .ok (inside.set index.toNat (assigned fresh v))
    else if index = inside.length then .ok (inside ++ [assigned fresh v])
    else .error .noEntryToAssign
  | .erase index =>
    if 0 ≤ index ∧ index < inside.length then .ok (inside.eraseIdx index.toNat)
    else if index < 0 ∧ 0 ≤ index + inside.length then
      .ok (inside.eraseIdx (index + inside.length).toNat)
    else .error .noEntry

/-- The step that a call comes down to on a range that holds `inside`. -/
def step (r : NodeRange) (inside : List NodeId) (fresh : NodeId) :
    RangeEdit → Except Fault RangeStep
  | .insertBefore n reference => .ok (.before n (reference.getD r.stop))
  | .remove n => .ok (.out n)
  | .replace new old => .ok (.instead new old)
  | .assign index v =>
    match if index < 0 then none else inside[index.toNat]? with
    | some old => .ok (.instead (assigned fresh v) old)
    | none =>
      if index = inside.length then .ok (.before (assigned fresh v) r.stop)
      else .error .noEntryToAssign
  | .erase index =>
    match nth? inside index with
    | some n => .ok (.out n)
    | none => .error .noEntry

end RangeEdit

namespace RangeStep

/-- Does the step. -/
def run (r : NodeRange) : RangeStep → Edit Unit
  | .before n anchor => r.insertBefore n (some anchor)
  | .instead n anchor => r.replace n anchor
  | .out n => r.remove n

/-- Does the step among the children of `p`. -/
def among (p : NodeId) : RangeStep → Edit Unit
  | .before n anchor => Edit.insertBefore p n (some anchor)
  | .instead n anchor => Edit.replaceChild p n anchor
  | .out n => Edit.removeChild p n

/-- Does the step, if there is one. -/
def attempt (r : NodeRange) : Except Fault RangeStep → Edit Unit
  | .ok c => c.run r
  | .error fault => throw fault

end RangeStep

open RangeEdit RangeStep

variable {s : Session} {r : NodeRange} {f f₁ f' : Forest} {p n : NodeId}
  {before inside held behind moved : List NodeId} {e : RangeEdit}

/-! ## From calls to steps -/

/-- A step is done among the children of the parent that the range has. -/
theorem RangeStep.run_eq_among (hp : r.parent f = .ok p) (c : RangeStep) :
    c.run r f = c.among p f := by
  cases c <;> exact bind_of_ok (look_of_ok hp)

/-- Putting a node at an index is one of two steps, if any. -/
theorem setNth_eq (hreads : r.ReadsAs f inside) (index : Int) (v : Value) (fresh : NodeId) :
    r.setNth index (assigned fresh v) f
      = attempt r ((RangeEdit.assign index v).step r inside fresh) f := by
  unfold NodeRange.setNth
  rw [bind_of_ok (look_of_ok (hreads.item? index))]
  simp only [step]
  cases hfound : (if index < 0 then none else inside[index.toNat]?) with
  | some old => rfl
  | none =>
      show (Edit.look r.size >>= fun size =>
        if index = (size : Int) then r.append (assigned fresh v)
        else throw .noEntryToAssign) f = _
      rw [bind_of_ok (look_of_ok hreads.size)]
      by_cases hindex : index = inside.length
      · simp only [if_pos hindex]
        rfl
      · simp only [if_neg hindex]
        rfl

/-- Taking out the entry at an index is taking out a node. -/
theorem eraseNth_eq (hreads : r.ReadsAs f inside) (index : Int) (fresh : NodeId) :
    r.eraseNth index f = attempt r ((RangeEdit.erase index).step r inside fresh) f := by
  have hnth := hreads.nth index
  unfold NodeRange.eraseNth
  simp only [step]
  cases hfound : nth? inside index with
  | some n =>
      rw [hfound] at hnth
      rw [bind_of_ok (look_of_ok hnth)]
      rfl
  | none =>
      rw [hfound] at hnth
      rw [bind_of_error (look_of_error hnth)]
      rfl

/-- `f₁` is `f` with the text that the call makes, if it makes one. -/
structure RangeEdit.WithText (e : RangeEdit) (f f₁ : Forest) : Prop where
  grown : Grown f f₁
  eq_of_none : e.text? = none → f₁ = f
  text?_eq : ∀ t ∈ e.text?, f₁.text? f.nextId = some t

theorem RangeEdit.WithText.refl (h : e.text? = none) (f : Forest) : e.WithText f f :=
  ⟨Grown.refl f, fun _ => rfl, fun t ht => by rw [h] at ht; exact nomatch ht⟩

/-- A call makes its text and then does its step. -/
theorem RangeEdit.run_eq (hf : s.forest.Linked) (hp : r.Stands s.forest p before inside behind)
    (he : e.Proper) :
    ∃ f₁, e.WithText s.forest f₁ ∧
      e.run r s = Live.edit (attempt r (e.step r inside s.forest.nextId))
        { s with forest := f₁ } := by
  have hreads := hp.readsAs hf
  cases e with
  | insertBefore n reference => exact ⟨s.forest, .refl rfl _, by cases reference <;> rfl⟩
  | remove n => exact ⟨s.forest, .refl rfl _, rfl⟩
  | replace new old => exact ⟨s.forest, .refl rfl _, rfl⟩
  | erase index => exact ⟨s.forest, .refl rfl _, Live.edit_congr (eraseNth_eq hreads index _)⟩
  | assign index v =>
      rcases he with ⟨n, rfl⟩ | ⟨t, rfl⟩
      · exact ⟨s.forest, .refl rfl _, Live.edit_congr (setNth_eq hreads index (.node n) _)⟩
      · obtain ⟨f₁, hgrow, hgrown, -, htext⟩ := growText_ok s.forest t
        have hp₁ : r.Stands f₁ p before inside behind := (hgrown.views_eq p).1.trans hp
        refine ⟨f₁, ⟨hgrown, nofun, ?_⟩, ?_⟩
        · rintro _ ⟨⟩
          exact htext
        · exact (Live.edit_bind_ok hgrow).trans
            (Live.edit_congr (setNth_eq (hp₁.readsAs (hgrown.linked hf)) index (.text t) _))

/-! ## What a step does to the range -/

/-- `f'` is `f` but for the range, which now holds `held`: the nodes `moved` have left their old
places, and whatever else stood outside the range stands as before. -/
structure Edited (r : NodeRange) (f f' : Forest) (p : NodeId) (before held behind : List NodeId)
    (moved : List NodeId) : Prop where
  linked : f'.Linked
  stands : r.Stands f' p (before.filter (· ∉ moved)) held (behind.filter (· ∉ moved))
  children_eq : ∀ q, q ≠ p → f'.children q = (f.children q).filter (· ∉ moved)
  kind?_eq : ∀ n, n < f.nextId → f'.kind? n = f.kind? n

namespace Edited

/-- Making a text first makes no difference. -/
theorem of_grown (hgrown : Grown f f₁) (h : Edited r f₁ f' p before held behind moved) :
    Edited r f f' p before held behind moved where
  linked := h.linked
  stands := h.stands
  children_eq := fun q hq => by rw [h.children_eq q hq, (hgrown.views_eq q).1]
  kind?_eq := fun n hn =>
    (h.kind?_eq n (Nat.lt_of_lt_of_le hn hgrown.nextId_le)).trans (hgrown.kind?_eq hn)

/-- A node that the range held before and does not hold any more stands alone. -/
theorem parent?_eq_none (hf : f.Linked) (hp : r.Stands f p before inside behind)
    (h : Edited r f f' p before held behind moved) (hn : n ∈ inside) (hout : n ∉ held) :
    f'.parent? n = none := by
  rw [Option.eq_none_iff_forall_ne_some]
  intro q hq
  obtain ⟨hstart, hstop, hbefore, hbehind⟩ := hp.ne_ends hf hn
  have hmem := h.linked.mem_children_iff.mpr hq
  by_cases hqp : q = p
  · rw [hqp, h.stands] at hmem
    simp [hstart, hstop, hbefore, hbehind, hout] at hmem
  · rw [h.children_eq q hqp] at hmem
    exact hqp (hf.parent_unique (List.mem_of_mem_filter hmem) (hp.mem_children hn))

end Edited

/-- A step that puts a node into the range edits it, if the parent lists what it should. -/
theorem edited_of_relinked {ch : NodeId → List NodeId} (hf' : Relinked f f' ch)
    (hp : ch p = before.filter (· ≠ n) ++ r.start :: (held ++ r.stop :: behind.filter (· ≠ n)))
    (hother : ∀ q, q ≠ p → ch q = (f.children q).filter (· ≠ n)) :
    Edited r f f' p before held behind [n] where
  linked := hf'.linked
  stands := by
    rw [Stands, hf'.children_eq, hp, filter_not_mem_singleton, filter_not_mem_singleton]
  children_eq := fun q hq => by rw [hf'.children_eq, hother q hq, filter_not_mem_singleton]
  kind?_eq := fun m _ => hf'.kind?_eq m

/-- A node is put in front of the entry at an index, or of the end of the range. -/
theorem edited_before (hf : f.Linked) (hp : r.Stands f p before inside behind) {i : Nat}
    (hi : i ≤ inside.length) (hn : n ∉ inside) (hmovable : r.Movable f p n) :
    ∃ f', (RangeStep.before n (inside[i]?.getD r.stop)).run r f = .ok () f' ∧
      Edited r f f' p before (inside.insertIdx i n) behind [n] := by
  have hcut : inside.take i ++ inside.drop i = inside := List.take_append_drop i inside
  have hanchor : (inside.drop i ++ [r.stop]).head? = some (inside[i]?.getD r.stop) := by
    rcases Nat.lt_or_eq_of_le hi with hlt | rfl
    · rw [List.drop_eq_getElem_cons hlt, List.getElem?_eq_getElem hlt]
      rfl
    · rw [List.drop_length, List.getElem?_length]
      rfl
  have hfront : n ∉ inside.take i := fun h => hn (List.mem_of_mem_take h)
  have hback : n ∉ inside.drop i := fun h => hn (List.mem_of_mem_drop h)
  have hcursor : (inside.drop i ++ [r.stop]).head? ≠ some n := by
    intro h
    have hmem := List.mem_of_mem_head? h
    simp [hback, hmovable.ne_stop] at hmem
  have hinsert : inside.insertIdx i n = inside.take i ++ n :: inside.drop i := by
    simpa [hi] using insertIdx_length_append n (inside.take i) (inside.drop i)
  obtain ⟨f', hrun, hf'⟩ :=
    relinked_putBefore hf (by rwa [hcut]) hmovable.insertable hcursor
  rw [load_of_not_fragment hmovable.not_fragment] at hf'
  simp only [filter_not_mem_singleton, filter_ne_of_not_mem hfront,
    filter_ne_of_not_mem hback] at hf'
  refine ⟨f', by rw [← hrun, hanchor]; rfl, edited_of_relinked hf' ?_ fun q hq => if_neg hq⟩
  rw [if_pos rfl, hinsert]
  simp

/-- A node takes the place of the entry at an index. -/
theorem edited_instead (hf : f.Linked) (hp : r.Stands f p before inside behind) {i : Nat}
    (hi : i < inside.length) (hn : n ∉ inside) (hmovable : r.Movable f p n) :
    ∃ f', (RangeStep.instead n inside[i]).run r f = .ok () f' ∧
      Edited r f f' p before (inside.set i n) behind [n] := by
  have hcut : inside.take i ++ inside[i] :: inside.drop (i + 1) = inside := by
    rw [← List.drop_eq_getElem_cons hi, List.take_append_drop]
  have hwhole : f.children p = (before ++ r.start :: inside.take i) ++ inside[i] ::
      (inside.drop (i + 1) ++ r.stop :: behind) := by
    rw [hp]
    conv_lhs => rw [← hcut]
    simp only [List.append_assoc, List.cons_append]
  have hne : n ≠ inside[i] := fun h => hn (h ▸ List.getElem_mem hi)
  have hfront : n ∉ inside.take i := fun h => hn (List.mem_of_mem_take h)
  have hback : n ∉ inside.drop (i + 1) := fun h => hn (List.mem_of_mem_drop h)
  obtain ⟨f', hrun, hf'⟩ := relinked_replaceChild_moved hf hwhole hne hmovable.ne_parent
    hmovable.lt_nextId hmovable.not_fragment
  refine ⟨f', (run_eq_among (hp.parent_eq hf) _).trans hrun,
    edited_of_relinked hf' ?_ fun q hq => if_neg hq⟩
  rw [if_pos rfl, List.filter_append, List.filter_append,
    List.filter_cons_of_pos (by simpa using hmovable.ne_start.symm),
    List.filter_cons_of_pos (by simpa using hmovable.ne_stop.symm), filter_ne_of_not_mem hfront,
    filter_ne_of_not_mem hback, List.set_eq_take_append_cons_drop, if_pos hi]
  simp

/-- An entry is taken out of the range. -/
theorem edited_out (hf : f.Linked) (hp : r.Stands f p before inside behind) (hn : n ∈ inside) :
    ∃ f', (RangeStep.out n).run r f = .ok () f' ∧
      Edited r f f' p before (inside.erase n) behind [] := by
  obtain ⟨hstart, hstop, hbefore, hbehind⟩ := hp.ne_ends hf hn
  obtain ⟨f', hrun, hf'⟩ := relinked_removeChild hf (hp.mem_children hn)
  refine ⟨f', (run_eq_among (hp.parent_eq hf) _).trans hrun, hf'.linked, ?_, fun q hq => ?_,
    fun m _ => hf'.kind?_eq m⟩
  · rw [Stands, hf'.children_eq, hp, List.filter_append,
      List.filter_cons_of_pos (by simpa using hstart.symm), List.filter_append,
      List.filter_cons_of_pos (by simpa using hstop.symm), filter_ne_of_not_mem hbefore,
      filter_ne_of_not_mem hbehind, filter_not_mem_nil, filter_not_mem_nil,
      (hp.nodup_inside hf).erase_eq_filter]
    congr 3
    exact List.filter_congr fun m _ => by by_cases h : m = n <;> simp [h]
  · have hnq : n ∉ f.children q := fun h => hq (hf.parent_unique h (hp.mem_children hn))
    rw [hf'.children_eq, filter_ne_of_not_mem hnq, filter_not_mem_nil]

/-! ## Calls that edit the range like a list -/

/-- The call takes in a node from outside the range, and goes by entries of the range. -/
structure RangeEdit.Fits (e : RangeEdit) (r : NodeRange) (f : Forest) (p : NodeId)
    (inside : List NodeId) : Prop where
  proper : e.Proper
  taken : ∀ n ∈ e.taken, n ∉ inside ∧ r.Movable f p n
  named : ∀ n ∈ e.named, n ∈ inside

/-- What a call puts into the range is given to it, or a text that it has made. -/
theorem RangeEdit.mem_put {fresh : NodeId} (he : e.Proper) (hn : n ∈ e.put fresh) :
    n ∈ e.taken ∨ n = fresh ∧ ∃ t, e.text? = some t := by
  cases e with
  | insertBefore m reference => exact .inl hn
  | remove m => exact nomatch hn
  | replace new old => exact .inl hn
  | erase index => exact nomatch hn
  | assign index v =>
      rcases he with ⟨m, rfl⟩ | ⟨t, rfl⟩
      · exact .inl hn
      · exact .inr ⟨List.mem_singleton.mp hn, t, rfl⟩

/-- What a call puts into the range may be moved there. -/
theorem RangeEdit.Fits.put (h : e.Fits r f p inside) (hf : f.Linked)
    (hp : r.Stands f p before inside behind) (htext : e.WithText f f₁) :
    ∀ n ∈ e.put f.nextId, n ∉ inside ∧ r.Movable f₁ p n := by
  intro n hn
  rcases mem_put h.proper hn with hgiven | ⟨rfl, t, ht⟩
  · obtain ⟨hout, hmovable⟩ := h.taken n hgiven
    have hlt := hmovable.lt_nextId
    exact ⟨hout, hmovable.ne_start, hmovable.ne_stop, hmovable.ne_parent,
      Nat.lt_of_lt_of_le hlt htext.grown.nextId_le,
      (htext.grown.isFragment_eq hlt).trans hmovable.not_fragment⟩
  · exact ⟨fun hmem => Nat.lt_irrefl _ (hf.lt_nextId (hp.mem_children hmem)),
      htext.grown.movable hf hp (Nat.le_refl _) (lt_nextId_of_text? (htext.text?_eq t ht))⟩

/-- An index from the start of a list finds the entry there. -/
theorem entry_of_index {index : Int} (h : 0 ≤ index ∧ index < inside.length) :
    ∃ hi : index.toNat < inside.length,
      (if index < 0 then none else inside[index.toNat]?) = some inside[index.toNat] := by
  have hi : index.toNat < inside.length := (Int.toNat_lt h.1).mpr h.2
  exact ⟨hi, by rw [if_neg (Int.not_lt.mpr h.1), List.getElem?_eq_getElem hi]⟩

theorem entry_of_no_index {index : Int} (h : ¬ (0 ≤ index ∧ index < inside.length)) :
    (if index < 0 then none else inside[index.toNat]?) = none := by
  by_cases hindex : index < 0
  · rw [if_pos hindex]
  · rw [if_neg hindex, List.getElem?_eq_none]
    omega

/-- A call that a list takes does the same to the range. -/
theorem RangeEdit.exists_edited {fresh : NodeId} (hf : f.Linked)
    (hp : r.Stands f p before inside behind)
    (hput : ∀ n ∈ e.put fresh, n ∉ inside ∧ r.Movable f p n) (hnamed : ∀ n ∈ e.named, n ∈ inside)
    (hheld : e.onList fresh inside = .ok held) :
    ∃ f', attempt r (e.step r inside fresh) f = .ok () f' ∧
      Edited r f f' p before held behind (e.put fresh) := by
  cases e with
  | insertBefore n reference =>
      obtain ⟨hn, hmovable⟩ := hput n (List.mem_singleton_self n)
      cases reference with
      | none =>
          obtain rfl := Except.ok.inj hheld
          have hedited := edited_before hf hp (Nat.le_refl _) hn hmovable
          rwa [List.getElem?_length, List.insertIdx_length_self] at hedited
      | some m =>
          obtain rfl := Except.ok.inj hheld
          have hm : m ∈ inside := hnamed m (List.mem_singleton_self m)
          have hedited :=
            edited_before hf hp (Nat.le_of_lt (List.idxOf_lt_length_iff.mpr hm)) hn hmovable
          rwa [List.getElem?_idxOf hm] at hedited
  | remove n =>
      obtain rfl := Except.ok.inj hheld
      exact edited_out hf hp (hnamed n (List.mem_singleton_self n))
  | replace new old =>
      obtain rfl := Except.ok.inj hheld
      obtain ⟨hn, hmovable⟩ := hput new (List.mem_singleton_self new)
      have hi : inside.idxOf old < inside.length :=
        List.idxOf_lt_length_iff.mpr (hnamed old (List.mem_singleton_self old))
      have hedited := edited_instead hf hp hi hn hmovable
      rwa [List.getElem_idxOf hi] at hedited
  | assign index v =>
      obtain ⟨hn, hmovable⟩ := hput _ (List.mem_singleton_self _)
      simp only [onList] at hheld
      simp only [step]
      split at hheld
      · next hindex =>
          obtain rfl := Except.ok.inj hheld
          obtain ⟨hi, hentry⟩ := entry_of_index hindex
          rw [hentry]
          exact edited_instead hf hp hi hn hmovable
      · next hindex =>
          rw [entry_of_no_index hindex]
          split at hheld
          · next hlast =>
              obtain rfl := Except.ok.inj hheld
              have hedited := edited_before hf hp (Nat.le_refl _) hn hmovable
              rw [List.getElem?_length, List.insertIdx_length_self] at hedited
              simp only [if_pos hlast]
              exact hedited
          · exact nomatch hheld
  | erase index =>
      have herase : ∀ i (hi : i < inside.length),
          inside.eraseIdx i = inside.erase inside[i] := fun i hi =>
        ((hp.nodup_inside hf).erase_getElem i hi).symm
      simp only [onList] at hheld
      simp only [step, nth?]
      split at hheld
      · next hindex =>
          obtain ⟨hi, hentry⟩ := entry_of_index hindex
          obtain rfl := Except.ok.inj hheld
          rw [if_neg (Int.not_lt.mpr hindex.1), hentry, herase _ hi]
          exact edited_out hf hp (List.getElem_mem hi)
      · next hindex =>
          split at hheld
          · next hback =>
              have hin : 0 ≤ index + inside.length ∧ index + inside.length < inside.length := by
                omega
              obtain ⟨hi, hentry⟩ := entry_of_index hin
              obtain rfl := Except.ok.inj hheld
              rw [if_pos hback.1, hentry, herase _ hi]
              exact edited_out hf hp (List.getElem_mem hi)
          · exact nomatch hheld

/-- A call that a list refuses does not come to a step. -/
theorem RangeEdit.step_eq_error {fresh : NodeId} {fault : Fault}
    (h : e.onList fresh inside = .error fault) : e.step r inside fresh = .error fault := by
  cases e with
  | insertBefore n reference => cases reference <;> exact nomatch h
  | remove n => exact nomatch h
  | replace new old => exact nomatch h
  | assign index v =>
      simp only [onList] at h
      simp only [step]
      split at h
      · exact nomatch h
      · next hindex =>
          rw [entry_of_no_index hindex]
          split at h
          · exact nomatch h
          · next hlast =>
              simp only [if_neg hlast]
              exact congrArg _ (Except.error.inj h)
  | erase index =>
      simp only [onList] at h
      simp only [step, nth?]
      split at h
      · exact nomatch h
      · next hindex =>
          split at h
          · exact nomatch h
          · next hback =>
              have hout : ¬ (0 ≤ (if index < 0 then index + inside.length else index) ∧
                  (if index < 0 then index + inside.length else index) < inside.length) := by
                omega
              rw [entry_of_no_index hout]
              exact congrArg _ (Except.error.inj h)

/-- A range is a list to those who read it and to those who edit it. -/
theorem range_edited_as_list (hf : s.forest.Linked)
    (hp : r.Stands s.forest p before inside behind) :
    r.ReadsAs s.forest inside ∧ ∀ e : RangeEdit, e.Fits r s.forest p inside →
      match e.onList s.forest.nextId inside with
      | .ok held => ∃ f', e.run r s = .ok () { s with forest := f' } ∧
          Edited r s.forest f' p before held behind (e.put s.forest.nextId) ∧
          (∀ n ∈ inside, n ∉ held → f'.parent? n = none) ∧
          ∀ t ∈ e.text?, f'.text? s.forest.nextId = some t
      | .error fault => ∃ f', e.run r s = .error fault { s with forest := f' } ∧
          (e.text? = none → f' = s.forest) ∧
          ∀ n, f'.children n = s.forest.children n ∧ f'.parent? n = s.forest.parent? n := by
  refine ⟨hp.readsAs hf, fun e hfits => ?_⟩
  obtain ⟨f₁, htext, hrun⟩ := run_eq hf hp hfits.proper
  have hp₁ : r.Stands f₁ p before inside behind := (htext.grown.views_eq p).1.trans hp
  have hf₁ := htext.grown.linked hf
  cases hlist : e.onList s.forest.nextId inside with
  | ok held =>
      obtain ⟨f', hstep, hedited⟩ :=
        exists_edited hf₁ hp₁ (hfits.put hf hp htext) hfits.named hlist
      refine ⟨f', ?_, hedited.of_grown htext.grown,
        fun n hn hout => hedited.parent?_eq_none hf₁ hp₁ hn hout, fun t ht => ?_⟩
      · rw [hrun, Live.edit_ok hstep]
      · have hfresh := htext.text?_eq t ht
        rw [text?_congr (hedited.kind?_eq _ (lt_nextId_of_text? hfresh)), hfresh]
  | error fault =>
      refine ⟨f₁, ?_, htext.eq_of_none, htext.grown.views_eq⟩
      rw [hrun, step_eq_error hlist]
      rfl

/-- The text behind the range takes the place of the element in it.  A string assigned behind the
last entry becomes a new text there. -/
theorem range_edited_as_list_sampleList :
    NodeRange.Stands ⟨2, 5⟩ sampleList.forest 1 [] [3, 4] [6] ∧
      RangeEdit.Fits (.replace 6 4) ⟨2, 5⟩ sampleList.forest 1 [3, 4] ∧
      RangeEdit.Fits (.assign 2 (.text "bread")) ⟨2, 5⟩ sampleList.forest 1 [3, 4] ∧
      (∃ f', RangeEdit.run ⟨2, 5⟩ (.replace 6 4) sampleList
          = .ok () { sampleList with forest := f' } ∧
        f'.children 1 = [2, 3, 6, 5] ∧ f'.parent? 4 = none) ∧
      ∃ f', RangeEdit.run ⟨2, 5⟩ (.assign 2 (.text "bread")) sampleList
          = .ok () { sampleList with forest := f' } ∧
        f'.children 1 = [2, 3, 4, 8, 5, 6] ∧ f'.text? 8 = some "bread" := by
  have hstands : NodeRange.Stands ⟨2, 5⟩ sampleList.forest 1 [] [3, 4] [6] := rfl
  have hmoved : RangeEdit.Fits (.replace 6 4) ⟨2, 5⟩ sampleList.forest 1 [3, 4] := by
    refine ⟨trivial, fun n hn => ?_, by decide⟩
    obtain rfl : n = 6 := List.mem_singleton.mp hn
    exact ⟨by decide, by decide, by decide, by decide, by decide, rfl⟩
  have htext : RangeEdit.Fits (.assign 2 (.text "bread")) ⟨2, 5⟩ sampleList.forest 1 [3, 4] :=
    ⟨.inr ⟨_, rfl⟩, nofun, nofun⟩
  have hlist := range_edited_as_list (s := sampleList) (by decide) hstands
  obtain ⟨f₁, hrun₁, hedited₁, hout, -⟩ := hlist.2 _ hmoved
  obtain ⟨f₂, hrun₂, hedited₂, -, hfresh⟩ := hlist.2 _ htext
  exact ⟨hstands, hmoved, htext,
    ⟨f₁, hrun₁, hedited₁.stands, hout 4 (by decide) (by decide)⟩,
    f₂, hrun₂, hedited₂.stands, hfresh _ rfl⟩

end LiveTemplate
