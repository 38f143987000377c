import LiveTemplate.Proofs.Nesting.Call
import LiveTemplate.Proofs.Session.Runs

/-!
# Acts on nested sessions

Of the acts that runs consist of only two touch the lists of children: `create` adds an instance
(`Act.after_create`), and `place` gives a range new contents, which is the subject of
`Nested.call`.  All others leave a session alike (`Act.after_alike`).
-/

namespace LiveTemplate

set_option autoImplicit false

open Forest

/-- Stored arguments do not change what an instance is made of. -/
theorem Session.alike_setArguments (s : Session) (i : InstanceId) (arguments : Value) :
    s.Alike (s.setArguments i arguments) := by
  refine ⟨fun _ => rfl, fun _ => rfl, fun _ => rfl, s.size_setArguments i arguments, fun j => ?_,
    fun j => ?_, fun _ => rfl⟩
  · obtain ⟨stored, hstored⟩ := s.instanceAt_setArguments i j arguments
    rw [hstored]
  · obtain ⟨stored, hstored⟩ := s.instanceAt_setArguments i j arguments
    rw [hstored]

/-- Attributes are no links. -/
theorem Session.alike_setAttribute (s : Session) (e : NodeId) (name : String)
    (value : Option String) :
    s.Alike { s with forest := s.forest.setAttribute e name value } := by
  refine ⟨fun n => (links_setAttribute s.forest e name value n).1,
    isFragment_setAttribute s.forest e name value, fun n => ?_, rfl, fun _ => rfl, fun _ => rfl,
    fun _ => rfl⟩
  show (s.forest.setAttribute e name value).text? n = s.forest.text? n
  unfold Forest.text?
  rw [leaf?_setAttribute]

namespace Act

variable {s : Session} {a : Act}

/-- Making an instance realizes its template. -/
theorem after_create (hs : s.forest.Linked) (t : TemplateId) (arguments : Option Value) :
    ∃ parts f, Realized s.forest f (rangesOf (PartList.sites parts)) ∧
      Act.after s (.create t arguments)
        = s.created t f s.forest.nextId parts arguments := by
  obtain ⟨parts, f, hrun, hf⟩ := realize_ok hs (s.templateAt t).markers (s.staticTrees t)
  refine ⟨parts, f, hf, Live.after_of_ok (a := ()) ?_⟩
  show makeInstance t arguments s = _
  unfold makeInstance
  rw [hrun]

/-- Acts that neither make an instance nor fill a range leave a session alike. -/
theorem after_alike (hs : s.forest.Linked) (hcreate : ∀ t arguments, a ≠ .create t arguments)
    (hplace : ∀ r contents, a ≠ .place r contents) :
    (a.after s).forest.Linked ∧ s.Alike (a.after s) := by
  have hsame : ∀ {s' : Session}, s'.forest = s.forest → s'.instances = s.instances →
      s'.placed = s.placed → s'.forest.Linked ∧ s.Alike s' := by
    intro s' hforest hinstances hplaced
    refine ⟨hforest ▸ hs, ⟨fun n => by rw [hforest], fun n => by rw [hforest],
      fun n => by rw [hforest], by rw [hinstances], fun i => ?_, fun i => ?_, fun r => ?_⟩⟩
    · unfold Session.instanceAt
      rw [hinstances]
    · unfold Session.instanceAt
      rw [hinstances]
    · unfold Session.placedIn
      rw [hplaced]
  cases a with
  | create t arguments => exact absurd rfl (hcreate t arguments)
  | store i arguments => exact ⟨hs, s.alike_setArguments i arguments⟩
  | write e name v =>
      have hrun : Act.run (.write e name v) s =
          (Live.look (·.attributeText? v) >>= fun value => Live.setAttribute e name value) s := rfl
      cases hvalue : s.attributeText? v with
      | error fault =>
          rw [bind_of_error (Live.look_error hvalue)] at hrun
          rw [show Act.after s (.write e name v) = s from Live.after_of_error hrun]
          exact hsame rfl rfl rfl
      | ok value =>
          rw [bind_of_ok (Live.look_ok hvalue)] at hrun
          have hset : Live.setAttribute e name value s
              = .ok () { s with forest := s.forest.setAttribute e name value } := rfl
          rw [show Act.after s (.write e name v) = _ from Live.after_of_ok (hrun.trans hset)]
          exact ⟨hs.setAttribute e name value, s.alike_setAttribute e name value⟩
  | handOut e v => cases v <;> exact hsame rfl rfl rfl
  | place r contents => exact absurd rfl (hplace r contents)

/-- They make no nodes either. -/
theorem nextId_after (hcreate : ∀ t arguments, a ≠ .create t arguments)
    (hplace : ∀ r contents, a ≠ .place r contents) :
    (a.after s).forest.nextId = s.forest.nextId := by
  cases a with
  | create t arguments => exact absurd rfl (hcreate t arguments)
  | store i arguments => rfl
  | write e name v =>
      have hrun : Act.run (.write e name v) s =
          (Live.look (·.attributeText? v) >>= fun value => Live.setAttribute e name value) s := rfl
      cases hvalue : s.attributeText? v with
      | error fault =>
          rw [bind_of_error (Live.look_error hvalue)] at hrun
          rw [show Act.after s (.write e name v) = s from Live.after_of_error hrun]
      | ok value =>
          rw [bind_of_ok (Live.look_ok hvalue)] at hrun
          have hset : Live.setAttribute e name value s
              = .ok () { s with forest := s.forest.setAttribute e name value } := rfl
          rw [show Act.after s (.write e name v) = _ from Live.after_of_ok (hrun.trans hset)]
          exact nextId_setAttribute s.forest e name value
  | handOut e v => cases v <;> rfl
  | place r contents => exact absurd rfl (hplace r contents)

end Act

end LiveTemplate
