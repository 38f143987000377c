import LiveTemplate.Proofs.Forest.Growth
import LiveTemplate.Proofs.Range.Reconciled
import LiveTemplate.Session.Compile
import LiveTemplate.Session.Instance

/-!
# Calls on a session

A call on a session runs an edit on its forest and writes down what it has to remember.  The
lemmas below take calls apart into these two halves.
-/

namespace LiveTemplate

set_option autoImplicit false

/-- A session in which nothing has been realized yet. -/
structure Session.Blank (s : Session) : Prop where
  linked : s.forest.Linked
  no_instances : s.instances = #[]
  nothing_placed : s.placed = []

/-- A template is kept without anything being realized. -/
theorem Session.Blank.addTemplate {s : Session} (hs : s.Blank) (t : Template) :
    (s.addTemplate t).Blank where
  linked := (Forest.planted_plantFragment hs.linked t.trees).linked
  no_instances := hs.no_instances
  nothing_placed := hs.nothing_placed

/-- A session that keeps the given templates. -/
def Session.ofTemplates (ts : List Template) : Session := ts.foldl Session.addTemplate {}

theorem Session.blank_ofTemplates (ts : List Template) : (Session.ofTemplates ts).Blank := by
  have hadded : ∀ {s : Session}, s.Blank → (ts.foldl Session.addTemplate s).Blank := by
    induction ts with
    | nil => exact id
    | cons t ts ih => exact fun hs => ih (hs.addTemplate t)
  exact hadded ⟨by decide, rfl, rfl⟩

namespace Session

/-- The session with a new instance of a template, which was realized in the forest `f`. -/
def created (s : Session) (t : TemplateId) (f : Forest) (home : NodeId) (parts : List Part)
    (arguments : Option Value) : Session :=
  ({ s with forest := f }.notify (.realized parts.length)).addInstance
    { template := t
      block := Block.ofFragment s.instances.size home f
      parts
      fills := arguments.isSome
      arguments := arguments.getD .null }

@[simp] theorem instanceAt_created_self (s : Session) (t : TemplateId) (f : Forest) (home : NodeId)
    (parts : List Part) (arguments : Option Value) :
    (s.created t f home parts arguments).instanceAt s.instances.size =
      { template := t
        block := Block.ofFragment s.instances.size home f
        parts
        fills := arguments.isSome
        arguments := arguments.getD .null } := by
  simp [created, instanceAt, addInstance, notify, Array.getD]

theorem instanceAt_created_of_lt (s : Session) (t : TemplateId) (f : Forest) (home : NodeId)
    (parts : List Part) (arguments : Option Value) {i : InstanceId} (hi : i < s.instances.size) :
    (s.created t f home parts arguments).instanceAt i = s.instanceAt i := by
  have hi' : i < s.instances.size + 1 := Nat.lt_succ_of_lt hi
  simp [created, instanceAt, addInstance, notify, Array.getD, hi, hi', Array.getElem_push]

@[simp] theorem size_created (s : Session) (t : TemplateId) (f : Forest) (home : NodeId)
    (parts : List Part) (arguments : Option Value) :
    (s.created t f home parts arguments).instances.size = s.instances.size + 1 := by
  simp [created, addInstance, notify]

/-- Storing arguments changes nothing else about an instance. -/
theorem instanceAt_setArguments (s : Session) (i j : InstanceId) (arguments : Value) :
    ∃ stored, (s.setArguments i arguments).instanceAt j
      = { s.instanceAt j with arguments := stored } := by
  unfold setArguments instanceAt
  simp only [Array.getD_eq_getD_getElem?, Array.getElem?_modify]
  by_cases hij : i = j
  · rw [if_pos hij]
    cases s.instances[j]? <;> exact ⟨_, rfl⟩
  · rw [if_neg hij]
    exact ⟨_, rfl⟩

@[simp] theorem size_setArguments (s : Session) (i : InstanceId) (arguments : Value) :
    (s.setArguments i arguments).instances.size = s.instances.size := Array.size_modify

/-- What is remembered of a range. -/
theorem placedIn_remember (s : Session) (r r' : NodeRange) (blocks : List Block) :
    (s.remember r blocks).placedIn r' = if r' = r then blocks else s.placedIn r' := by
  unfold remember placedIn
  show (List.lookup r' ((r, blocks) :: s.placed.filter (·.1 != r))).getD [] = _
  rw [List.lookup_cons]
  by_cases hr : r' = r
  · rw [if_pos hr, show (r' == r) = true by simpa using hr]
    rfl
  · rw [if_neg hr, show (r' == r) = false by simpa using hr]
    congr 1
    show List.lookup r' (s.placed.filter (·.1 != r)) = _
    induction s.placed with
    | nil => rfl
    | cons e placed ih =>
        obtain ⟨k, bs⟩ := e
        rw [List.filter_cons, List.lookup_cons]
        by_cases hk : k = r
        · subst hk
          rw [if_neg (by simp), ih, show (r' == k) = false by simpa using hr]
        · rw [if_pos (by simpa using hk), List.lookup_cons, ih]

end Session

namespace Live

variable {s : Session}

theorem look_ok {α : Type} {view : Session → Except Fault α} {a : α} (h : view s = .ok a) :
    Live.look view s = .ok a s := by
  unfold Live.look
  rw [bind_of_ok (get_ok s)]
  generalize view s = seen at h ⊢
  rw [h]
  rfl

theorem look_error {α : Type} {view : Session → Except Fault α} {fault : Fault}
    (h : view s = .error fault) : Live.look view s = .error fault s := by
  unfold Live.look
  rw [bind_of_ok (get_ok s)]
  generalize view s = seen at h ⊢
  rw [h]
  rfl

theorem edit_ok {α : Type} {act : Edit α} {a : α} {f : Forest} (h : act s.forest = .ok a f) :
    edit act s = .ok a { s with forest := f } := by
  unfold edit
  rw [h]

theorem edit_error {α : Type} {act : Edit α} {fault : Fault} {f : Forest}
    (h : act s.forest = .error fault f) : edit act s = .error fault { s with forest := f } := by
  unfold edit
  rw [h]

/-- An edit goes on from what its first part has left. -/
theorem edit_bind_ok {α β : Type} {act : Edit α} {g : α → Edit β} {a : α} {f : Forest}
    (h : act s.forest = .ok a f) : edit (act >>= g) s = edit (g a) { s with forest := f } := by
  unfold edit
  rw [bind_of_ok h]

/-- Edits that agree on the forest of a session agree on the session. -/
theorem edit_congr {α : Type} {act other : Edit α} (h : act s.forest = other s.forest) :
    edit act s = edit other s := by
  unfold edit
  rw [h]

/-- A range is given new contents by a reconciliation with what it held last, and the blocks among
them are remembered. -/
theorem replaceContents_ok {r : NodeRange} {contents : List Content} {blocks : List Block}
    {f : Forest} (h : r.reconcile (s.placedIn r) contents s.forest = .ok blocks f) :
    replaceContents r contents s = .ok () ({ s with forest := f }.remember r blocks) := by
  unfold replaceContents
  rw [bind_of_ok (get_ok s), bind_of_ok (edit_ok h)]
  rfl

theorem replaceContents_error {r : NodeRange} {contents : List Content} {fault : Fault}
    {f : Forest} (h : r.reconcile (s.placedIn r) contents s.forest = .error fault f) :
    replaceContents r contents s = .error fault { s with forest := f } := by
  unfold replaceContents
  rw [bind_of_ok (get_ok s), bind_of_error (edit_error h)]

/-- A call that returns has reconciled the range. -/
theorem replaceContents_eq_ok {r : NodeRange} {contents : List Content} {s' : Session}
    (h : replaceContents r contents s = .ok () s') :
    ∃ blocks f, r.reconcile (s.placedIn r) contents s.forest = .ok blocks f ∧
      s' = ({ s with forest := f }).remember r blocks := by
  cases hrun : r.reconcile (s.placedIn r) contents s.forest with
  | error fault f =>
      rw [replaceContents_error hrun] at h
      exact nomatch h
  | ok blocks f =>
      rw [replaceContents_ok hrun] at h
      cases h
      exact ⟨blocks, f, rfl, rfl⟩

/-- An instance is made by realizing its template; then it is filled if there are arguments. -/
theorem instantiate_eq {t : TemplateId} {f : Forest} {home : NodeId} {parts : List Part}
    (h : Edit.realize (s.templateAt t).markers (s.staticTrees t) s.forest = .ok (home, parts) f)
    (arguments : Option Value) :
    instantiate t arguments s =
      ((match arguments with
        | some values => fillFrom values 0 parts
        | none => pure ()) >>= fun _ => (pure s.instances.size : Live InstanceId))
        (s.created t f home parts arguments) := by
  unfold instantiate
  rw [bind_of_ok (get_ok s), bind_of_ok (edit_ok h)]
  cases arguments <;> rfl

end Live

end LiveTemplate
