import LiveTemplate.Proofs.Session.Calls

/-!
# Runs of a session

A call on a session does several things one after another: making an instance also fills it, and
filling an instance fills one part after the other.  Here calls are taken apart into acts, each of
which touches one part or makes one instance.  A call that fails ends with the act that failed, and
what was done before stays done; `after_run` says that the acts of a call leave the session that the
call leaves, and `afterActs_actsOf` says so for whole runs.
-/

namespace LiveTemplate

set_option autoImplicit false

/-- The session that a computation leaves, whether it succeeds or fails. -/
def Live.after {α : Type} (act : Live α) (s : Session) : Session :=
  match act s with
  | .ok _ s' => s'
  | .error _ s' => s'

theorem Live.after_of_ok {α : Type} {act : Live α} {s s' : Session} {a : α}
    (h : act s = .ok a s') : act.after s = s' := by
  unfold after
  rw [h]

theorem Live.after_of_error {α : Type} {act : Live α} {s s' : Session} {fault : Fault}
    (h : act s = .error fault s') : act.after s = s' := by
  unfold after
  rw [h]

@[simp] theorem Live.after_pure {α : Type} (a : α) (s : Session) :
    (pure a : Live α).after s = s := rfl

/-- Behind a success the next computation goes on. -/
theorem Live.after_bind_of_ok {α β : Type} {act : Live α} {next : α → Live β} {s s' : Session}
    {a : α} (h : act s = .ok a s') : (act >>= next).after s = (next a).after s' := by
  unfold after
  rw [bind_of_ok h]

/-- Behind a failure nothing goes on. -/
theorem Live.after_bind_of_error {α β : Type} {act : Live α} {next : α → Live β}
    {s s' : Session} {fault : Fault} (h : act s = .error fault s') :
    (act >>= next).after s = s' :=
  after_of_error (bind_of_error h)

/-! ## Acts -/

/-- One thing done to a session. -/
inductive Act
  /-- An instance is made, but not filled. -/
  | create (t : TemplateId) (arguments : Option Value)
  /-- The arguments of an instance are stored. -/
  | store (i : InstanceId) (arguments : Value)
  /-- An attribute is filled. -/
  | write (element : NodeId) (name : String) (v : Value)
  /-- An element is handed out. -/
  | handOut (element : NodeId) (v : Value)
  /-- A range is given new contents. -/
  | place (r : NodeRange) (contents : List Content)

namespace Act

/-- Makes an instance without filling it. -/
def makeInstance (t : TemplateId) (arguments : Option Value) : Live Unit := fun s =>
  match Edit.realize (s.templateAt t).markers (s.staticTrees t) s.forest with
  | .ok (home, parts) f => .ok () (s.created t f home parts arguments)
  | .error fault f => .error fault { s with forest := f }

/-- Does the act. -/
def run : Act → Live Unit
  | .create t arguments => makeInstance t arguments
  | .store i arguments => modify (·.setArguments i arguments)
  | .write e name v => Live.fill (.attribute e name) v
  | .handOut e v => Live.fill (.element e) v
  | .place r contents => Live.replaceContents r contents

/-- The session behind the act. -/
def after (s : Session) (a : Act) : Session := a.run.after s

/-- The act of filling the part of a site, if its value can be written out. -/
def ofSite (s : Session) (v : Value) : Site → Except Fault Act
  | .attribute e name => .ok (.write e name v)
  | .element e => .ok (.handOut e v)
  | .range r => (s.contentsOf (Session.rangeEntries v)).map (.place r)

/-- The acts of filling parts with arguments, up to the first that fails. -/
def ofParts (s : Session) (arguments : Value) (index : Nat) : List Part → List Act
  | [] => []
  | p :: rest =>
    match s.argumentAt arguments index with
    | .error _ => []
    | .ok v =>
      match ofSite s (v.getD .null) p.site with
      | .error _ => []
      | .ok a =>
        match a.run s with
        | .error _ _ => [a]
        | .ok _ s' => a :: ofParts s' arguments (index + 1) rest

end Act

/-- The session behind several acts. -/
def Session.afterActs (s : Session) (acts : List Act) : Session := acts.foldl Act.after s

/-! ## Calls -/

/-- What a caller may do with instances: make one, fill one again, or give a range new contents. -/
inductive Call
  | instantiate (t : TemplateId) (arguments : Option Value)
  | update (i : InstanceId) (arguments : Value)
  | replace (r : NodeRange) (contents : List Content)

namespace Call

/-- Makes the call. -/
def run : Call → Live Unit
  | .instantiate t arguments => do let _ ← Live.instantiate t arguments
  | .update i arguments => Live.update i arguments
  | .replace r contents => Live.replaceContents r contents

/-- The acts that a call consists of. -/
def acts (s : Session) : Call → List Act
  | .instantiate t arguments =>
    let made := Act.after s (.create t arguments)
    .create t arguments :: match arguments with
      | none => []
      | some values => Act.ofParts made values 0 (made.instanceAt s.instances.size).parts
  | .update i arguments =>
    if (s.instanceAt i).fills then
      .store i arguments ::
        Act.ofParts (s.setArguments i arguments) arguments 0 (s.instanceAt i).parts
    else []
  | .replace r contents => [.place r contents]

end Call

/-- The session behind several calls. -/
def Session.afterCalls (s : Session) (calls : List Call) : Session :=
  calls.foldl (fun s c => c.run.after s) s

/-- The acts that several calls consist of. -/
def Session.actsOf (s : Session) : List Call → List Act
  | [] => []
  | c :: rest => c.acts s ++ (c.run.after s).actsOf rest

/-- Every act is good on the session that it is done to. -/
def Throughout (good : Session → Act → Prop) (s : Session) : List Act → Prop
  | [] => True
  | a :: rest => good s a ∧ Throughout good (a.after s) rest

instance decidableThroughout (good : Session → Act → Prop) [∀ s, DecidablePred (good s)] :
    ∀ (s : Session) (acts : List Act), Decidable (Throughout good s acts)
  | _, [] => .isTrue trivial
  | s, a :: rest =>
    have := decidableThroughout good (a.after s) rest
    inferInstanceAs (Decidable (_ ∧ _))

/-! ## Acts leave what their call leaves -/

section Agreement

variable {s : Session}

/-- Filling a part is its act. -/
theorem fill_eq_run {site : Site} {v : Value} {a : Act} (h : Act.ofSite s v site = .ok a) :
    Live.fill site v s = a.run s := by
  rcases site with ⟨e, name⟩ | e | r
  · cases h
    rfl
  · cases h
    rfl
  · unfold Act.ofSite at h
    cases hcontents : s.contentsOf (Session.rangeEntries v) with
    | error fault =>
        rw [hcontents] at h
        exact nomatch h
    | ok contents =>
        rw [hcontents] at h
        cases h
        show (Live.look (·.contentsOf (Session.rangeEntries v)) >>= fun contents =>
          Live.replaceContents r contents) s = _
        rw [bind_of_ok (Live.look_ok hcontents)]
        rfl

/-- A part whose value cannot be written out is left as it is. -/
theorem fill_of_ofSite_error {site : Site} {v : Value} {fault : Fault}
    (h : Act.ofSite s v site = .error fault) : Live.fill site v s = .error fault s := by
  rcases site with ⟨e, name⟩ | e | r
  · exact nomatch h
  · exact nomatch h
  · unfold Act.ofSite at h
    cases hcontents : s.contentsOf (Session.rangeEntries v) with
    | error fault' =>
        rw [hcontents] at h
        cases h
        show (Live.look (·.contentsOf (Session.rangeEntries v)) >>= fun contents =>
          Live.replaceContents r contents) s = _
        rw [bind_of_error (Live.look_error hcontents)]
    | ok contents =>
        rw [hcontents] at h
        exact nomatch h

/-- The acts of filling parts leave what filling them leaves. -/
theorem after_fillFrom (s : Session) (arguments : Value) (index : Nat) (parts : List Part) :
    (Live.fillFrom arguments index parts).after s
      = s.afterActs (Act.ofParts s arguments index parts) := by
  induction parts generalizing s index with
  | nil => rfl
  | cons p rest ih =>
      show (Live.look (·.argumentAt arguments index) >>= fun v =>
        Live.fill p.site (v.getD .null) >>= fun _ =>
          Live.fillFrom arguments (index + 1) rest).after s = _
      unfold Act.ofParts
      cases hargument : s.argumentAt arguments index with
      | error fault => exact Live.after_bind_of_error (Live.look_error hargument)
      | ok v =>
          rw [Live.after_bind_of_ok (Live.look_ok hargument)]
          dsimp only
          cases hpart : Act.ofSite s (v.getD .null) p.site with
          | error fault => exact Live.after_bind_of_error (fill_of_ofSite_error hpart)
          | ok a =>
              have hfill : Live.fill p.site (v.getD .null) s = a.run s := fill_eq_run hpart
              dsimp only
              cases hrun : a.run s with
              | error fault s' =>
                  have hafter : a.after s = s' := Live.after_of_error hrun
                  rw [Live.after_bind_of_error (hfill.trans hrun), ← hafter]
                  rfl
              | ok _ s' =>
                  have hafter : a.after s = s' := Live.after_of_ok hrun
                  rw [Live.after_bind_of_ok (hfill.trans hrun), ih, ← hafter]
                  rfl

/-- The acts of making an instance leave what making it leaves. -/
theorem after_instantiate (s : Session) (t : TemplateId) (arguments : Option Value) :
    (Call.instantiate t arguments).run.after s
      = s.afterActs ((Call.instantiate t arguments).acts s) := by
  show (Live.instantiate t arguments >>= fun _ => pure ()).after s = _
  unfold Call.acts Session.afterActs
  dsimp only
  rw [List.foldl_cons]
  cases hrealize : Edit.realize (s.templateAt t).markers (s.staticTrees t) s.forest with
  | error fault f =>
      have hrun : Act.makeInstance t arguments s = .error fault { s with forest := f } := by
        unfold Act.makeInstance
        rw [hrealize]
      have hmade : Act.after s (.create t arguments) = { s with forest := f } :=
        Live.after_of_error hrun
      have hfails : Live.instantiate t arguments s = .error fault { s with forest := f } := by
        unfold Live.instantiate
        rw [bind_of_ok (get_ok s),
          bind_of_error (Live.edit_error hrealize)]
      have hnone : { s with forest := f }.instanceAt s.instances.size = default := by
        simp [Session.instanceAt, Array.getD]
      rw [Live.after_bind_of_error hfails, hmade, hnone]
      cases arguments <;> rfl
  | ok made f =>
      obtain ⟨home, parts⟩ := made
      have hrun : Act.makeInstance t arguments s = .ok () (s.created t f home parts arguments) := by
        unfold Act.makeInstance
        rw [hrealize]
      have hmade : Act.after s (.create t arguments) = s.created t f home parts arguments :=
        Live.after_of_ok hrun
      have heq := Live.instantiate_eq hrealize arguments
      rw [hmade, Session.instanceAt_created_self]
      cases arguments with
      | none => exact Live.after_bind_of_ok heq
      | some values =>
          show _ = (s.created t f home parts (some values)).afterActs
            (Act.ofParts (s.created t f home parts (some values)) values 0 parts)
          rw [← after_fillFrom]
          cases hfill : Live.fillFrom values 0 parts
              (s.created t f home parts (some values)) with
          | ok _ s' =>
              rw [Live.after_of_ok hfill]
              exact Live.after_bind_of_ok (heq.trans (bind_of_ok hfill))
          | error fault s' =>
              rw [Live.after_of_error hfill]
              exact Live.after_bind_of_error (heq.trans (bind_of_error hfill))

/-- The acts of filling an instance again leave what filling it leaves. -/
theorem after_update (s : Session) (i : InstanceId) (arguments : Value) :
    (Call.update i arguments).run.after s
      = s.afterActs ((Call.update i arguments).acts s) := by
  show ((get : Live Session) >>= fun s => if (s.instanceAt i).fills = true then
      (modify (·.setArguments i arguments) : Live Unit) >>= fun _ =>
        Live.fillFrom arguments 0 (s.instanceAt i).parts
    else throw .nothingFills).after s = _
  rw [Live.after_bind_of_ok (get_ok s)]
  unfold Call.acts
  dsimp only
  by_cases hfills : (s.instanceAt i).fills = true
  · rw [if_pos hfills, if_pos hfills, Live.after_bind_of_ok (modify_ok _ s), after_fillFrom]
    rfl
  · rw [if_neg hfills, if_neg hfills]
    rfl

/-- The acts of a call leave what the call leaves. -/
theorem after_run (s : Session) (c : Call) : c.run.after s = s.afterActs (c.acts s) := by
  cases c with
  | instantiate t arguments => exact after_instantiate s t arguments
  | update i arguments => exact after_update s i arguments
  | replace r contents => rfl

/-- The acts of a run leave what the run leaves. -/
theorem afterActs_actsOf (s : Session) (calls : List Call) :
    s.afterActs (s.actsOf calls) = s.afterCalls calls := by
  induction calls generalizing s with
  | nil => rfl
  | cons c rest ih =>
      unfold Session.actsOf Session.afterActs
      rw [List.foldl_append]
      show ((s.afterActs (c.acts s)).afterActs _) = (c.run.after s).afterCalls rest
      rw [← after_run, ih]

end Agreement

end LiveTemplate
