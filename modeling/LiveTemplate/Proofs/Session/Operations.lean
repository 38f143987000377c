import LiveTemplate.Proofs.Session.Runs
import LiveTemplate.Session.Assign
import LiveTemplate.Session.Compile

/-!
# Everything that can be done in a session

An operation is any single thing that a program does with a session: engines are made, templates
compiled, instances made and filled, ranges and attributes edited, and the live nodes changed in any
way whatever by other code.  An operation that fails leaves what it had done before.

Only the operations on engines concern engines and templates at all; the others are quiet
(`quiet_of_concernsEngines_eq_false`).  What compiling does to a session is said by `Compiled`.  So
no operation takes a template back or changes the parts of an instance (`extends_afterAll`).
-/

namespace LiveTemplate

set_option autoImplicit false

/-- A single thing done in a session. -/
inductive Operation
  | addEngine (settings : Settings)
  | newSequence
  /-- A sequence of fragments is compiled; `parse` is what the parsers do this time. -/
  | compile (parse : MarkupReader) (e : EngineId) (sequence : SequenceId) (fragments : Value)
    (forced : Option Dialect)
  | clearCache (e : EngineId)
  | instantiate (t : TemplateId) (arguments : Option Value)
  | update (i : InstanceId) (arguments : Value)
  | replaceContents (r : NodeRange) (contents : List Content)
  | assignAttribute (e : NodeId) (name : String) (v : Value)
  | assignEntry (r : NodeRange) (index : Int) (v : Value)
  | insertInRange (r : NodeRange) (v reference : Value)
  | removeInRange (r : NodeRange) (v : Value)
  | replaceInRange (r : NodeRange) (new old : Value)
  /-- The live nodes are changed in some other way. -/
  | edit (act : Edit Unit)
  | newRef (v : Value)
  | takeCalls

namespace Operation

/-- Does the operation. -/
def run : Operation → Live Unit
  | .addEngine settings => fun s =>
    match s.addEngine settings with
    | .ok s => .ok () s
    | .error fault => .error fault s
  | .newSequence => do let _ ← Live.newSequence
  | .compile parse e sequence fragments forced => do
    let _ ← Live.compileWith parse e sequence fragments forced
  | .clearCache e => Live.clearCache e
  | .instantiate t arguments => do let _ ← Live.instantiate t arguments
  | .update i arguments => Live.update i arguments
  | .replaceContents r contents => Live.replaceContents r contents
  | .assignAttribute e name v => Live.assignAttribute e name v
  | .assignEntry r index v => Live.assignEntry r index v
  | .insertInRange r v reference => Live.insertInRange r v reference
  | .removeInRange r v => Live.removeInRange r v
  | .replaceInRange r new old => Live.replaceInRange r new old
  | .edit act => Live.edit act
  | .newRef v => do let _ ← Live.newRef v
  | .takeCalls => do let _ ← Live.takeCalls

/-- Whether the operation is one on engines. -/
def concernsEngines : Operation → Bool
  | .addEngine _ | .compile .. | .clearCache _ => true
  | _ => false

end Operation

namespace Session

/-- The session behind several operations, of which some may have failed. -/
def afterAll (s : Session) (operations : List Operation) : Session :=
  operations.foldl (fun s operation => operation.run.after s) s

theorem afterAll_append (s : Session) (front back : List Operation) :
    s.afterAll (front ++ back) = (s.afterAll front).afterAll back := List.foldl_append

theorem afterAll_cons (s : Session) (operation : Operation) (rest : List Operation) :
    s.afterAll (operation :: rest) = (operation.run.after s).afterAll rest := rfl

/-- `s'` has the templates of `s`, its instances with their parts, and its sequences where they
were. -/
structure Extends (s s' : Session) : Prop where
  templates : ∀ (t : TemplateId) (template : Template), s.templates[t]? = some template →
    s'.templates[t]? = some template
  instances : ∀ (i : InstanceId) (x : Instance), s.instances[i]? = some x →
    ∃ x', s'.instances[i]? = some x' ∧ x'.template = x.template ∧ x'.parts = x.parts
  addressOf_eq : s'.addressOf = s.addressOf

namespace Extends

theorem refl (s : Session) : s.Extends s where
  templates _ _ h := h
  instances _ x h := ⟨x, h, rfl, rfl⟩
  addressOf_eq := rfl

theorem trans {s s' s'' : Session} (h : s.Extends s') (h' : s'.Extends s'') : s.Extends s'' where
  templates t template ht := h'.templates t template (h.templates t template ht)
  instances i x hx := by
    obtain ⟨x', hx', htemplate, hparts⟩ := h.instances i x hx
    obtain ⟨x'', hx'', htemplate', hparts'⟩ := h'.instances i x' hx'
    exact ⟨x'', hx'', htemplate'.trans htemplate, hparts'.trans hparts⟩
  addressOf_eq := h'.addressOf_eq.trans h.addressOf_eq

/-- Instances are only ever added behind the others. -/
theorem of_push {s s' : Session} (htemplates : s'.templates = s.templates) {x : Instance}
    (hinstances : s'.instances = s.instances.push x)
    (haddresses : s'.addressOf = s.addressOf) : s.Extends s' where
  templates t template h := by rw [htemplates, h]
  instances i y h := by
    rw [hinstances]
    refine ⟨y, ?_, rfl, rfl⟩
    rw [Array.getElem?_push, if_neg (Nat.ne_of_lt (Array.getElem?_eq_some_iff.mp h).1), h]
  addressOf_eq := haddresses

end Extends

/-- `s'` goes on from `s` with the same engines and templates. -/
structure Continues (s s' : Session) : Prop extends s.Extends s' where
  engines_eq : s'.engines = s.engines
  templates_eq : s'.templates = s.templates

namespace Continues

theorem refl (s : Session) : s.Continues s where
  toExtends := .refl s
  engines_eq := rfl
  templates_eq := rfl

theorem trans {s s' s'' : Session} (h : s.Continues s') (h' : s'.Continues s'') :
    s.Continues s'' where
  toExtends := h.toExtends.trans h'.toExtends
  engines_eq := h'.engines_eq.trans h.engines_eq
  templates_eq := h'.templates_eq.trans h.templates_eq

/-- Changes of anything else do not matter. -/
theorem of_eq {s s' : Session} (hengines : s'.engines = s.engines)
    (htemplates : s'.templates = s.templates) (hinstances : s'.instances = s.instances)
    (haddresses : s'.addressOf = s.addressOf) : s.Continues s' where
  templates t template h := by rw [htemplates, h]
  instances i x h := ⟨x, by rw [hinstances, h], rfl, rfl⟩
  addressOf_eq := haddresses
  engines_eq := hengines
  templates_eq := htemplates

end Continues

end Session

/-! ## Quiet computations -/

namespace Live

variable {α β : Type}

/-- What a call leaves does not depend on whether its result is used. -/
theorem after_bind_pure (act : Live α) (s : Session) :
    (act >>= fun _ => (pure () : Live Unit)).after s = act.after s := by
  cases h : act s with
  | ok a s' =>
      rw [after_bind_of_ok h, after_of_ok h]
      rfl
  | error fault s' => rw [after_bind_of_error h, after_of_error h]

/-- However it ends, the computation leaves engines and templates alone. -/
def Quiet (act : Live α) : Prop := ∀ s : Session, s.Continues (act.after s)

namespace Quiet

theorem pure (a : α) : Quiet (pure a : Live α) := fun s => .refl s

theorem throw (fault : Fault) : Quiet (throw fault : Live α) := fun s => .refl s

theorem get : Quiet (get : Live Session) := fun s => .refl s

theorem bind {act : Live α} {next : α → Live β} (h : Quiet act) (hnext : ∀ a, Quiet (next a)) :
    Quiet (act >>= next) := by
  intro s
  have hs := h s
  cases hact : act s with
  | ok a s' =>
      rw [after_of_ok hact] at hs
      rw [after_bind_of_ok hact]
      exact hs.trans (hnext a s')
  | error fault s' =>
      rw [after_of_error hact] at hs
      rw [after_bind_of_error hact]
      exact hs

theorem modify {change : Session → Session} (h : ∀ s : Session, s.Continues (change s)) :
    Quiet (modify change : Live PUnit) := h

theorem modifyGet {change : Session → α × Session} (h : ∀ s : Session, s.Continues (change s).2) :
    Quiet (modifyGet change : Live α) := h

theorem look (view : Session → Except Fault α) : Quiet (look view) := by
  intro s
  cases h : view s with
  | ok a =>
      rw [after_of_ok (look_ok h)]
      exact .refl s
  | error fault =>
      rw [after_of_error (look_error h)]
      exact .refl s

theorem edit (act : Edit α) : Quiet (edit act) := by
  intro s
  cases h : act s.forest with
  | ok a f =>
      rw [after_of_ok (edit_ok h)]
      exact .of_eq rfl rfl rfl rfl
  | error fault f =>
      rw [after_of_error (edit_error h)]
      exact .of_eq rfl rfl rfl rfl

theorem replaceContents (r : NodeRange) (contents : List Content) :
    Quiet (replaceContents r contents) :=
  get.bind fun _ => (edit _).bind fun _ => modify fun _ => .of_eq rfl rfl rfl rfl

theorem setAttribute (e : NodeId) (name : String) (value : Option String) :
    Quiet (setAttribute e name value) := edit _

theorem fill : ∀ (site : Site) (v : Value), Quiet (fill site v)
  | .attribute e name, _ => (look _).bind fun _ => setAttribute e name _
  | .range r, _ => (look _).bind fun _ => replaceContents r _
  | .element e, v => by
      cases v with
      | ref r => exact modify fun _ => .of_eq rfl rfl rfl rfl
      | callback tag => exact modify fun _ => .of_eq rfl rfl rfl rfl
      | _ => exact pure ()

theorem fillFrom (arguments : Value) (index : Nat) (parts : List Part) :
    Quiet (fillFrom arguments index parts) := by
  induction parts generalizing index with
  | nil => exact pure ()
  | cons p rest ih => exact (look _).bind fun _ => (fill p.site _).bind fun _ => ih (index + 1)

theorem instantiate (t : TemplateId) (arguments : Option Value) :
    Quiet (instantiate t arguments) := by
  refine get.bind fun _ => (edit _).bind fun (home, parts) => bind (modify ?_) fun _ => ?_
  · exact fun s => .of_eq rfl rfl rfl rfl
  · refine get.bind fun _ => get.bind fun _ => bind (modify ?_) fun _ => ?_
    · exact fun s => ⟨.of_push rfl rfl rfl, rfl, rfl⟩
    · cases arguments with
      | none => exact pure _
      | some values => exact (fillFrom values 0 parts).bind fun _ => pure _

theorem update (i : InstanceId) (arguments : Value) : Quiet (update i arguments) := by
  refine get.bind fun s => ?_
  dsimp only
  split
  · refine (modify fun s => ?_).bind fun _ => fillFrom arguments 0 _
    refine ⟨⟨fun _ _ h => h, fun j x h => ?_, rfl⟩, rfl, rfl⟩
    show ∃ x', (s.instances.modify i _)[j]? = some x' ∧ _
    rw [Array.getElem?_modify, h]
    split
    · exact ⟨_, rfl, rfl, rfl⟩
    · exact ⟨x, rfl, rfl, rfl⟩
  · exact throw _

theorem assignAttribute (e : NodeId) (name : String) (v : Value) :
    Quiet (assignAttribute e name v) := by
  refine get.bind fun s => ?_
  split
  · exact setAttribute e name none
  · exact setAttribute e name _
  · exact (look _).bind fun _ => throw _

theorem assignEntry (r : NodeRange) (index : Int) (v : Value) : Quiet (assignEntry r index v) := by
  cases v with
  | node n => exact edit _
  | text t => exact edit _
  | _ => exact (look _).bind fun _ => throw _

theorem refuseOperand (r : NodeRange) (v : Value) : Quiet (refuseOperand r v) :=
  (edit _).bind fun _ => throw _

theorem insertInRange (r : NodeRange) (v reference : Value) :
    Quiet (insertInRange r v reference) := by
  unfold Live.insertInRange
  split
  · exact edit _
  · exact edit _
  · exact edit _
  · exact refuseOperand r v

theorem removeInRange (r : NodeRange) (v : Value) : Quiet (removeInRange r v) := by
  unfold Live.removeInRange
  split
  · exact edit _
  · exact refuseOperand r v

theorem replaceInRange (r : NodeRange) (new old : Value) : Quiet (replaceInRange r new old) := by
  unfold Live.replaceInRange
  split
  · exact edit _
  · exact edit _
  · exact refuseOperand r new

end Quiet

end Live

/-- Operations other than those on engines leave engines and templates alone. -/
theorem quiet_of_concernsEngines_eq_false {operation : Operation}
    (h : operation.concernsEngines = false) : Live.Quiet operation.run := by
  cases operation with
  | addEngine | compile | clearCache => exact nomatch h
  | newSequence =>
      exact (Live.Quiet.modifyGet fun _ => .of_eq rfl rfl rfl rfl).bind fun _ => .pure ()
  | instantiate t arguments => exact (Live.Quiet.instantiate t arguments).bind fun _ => .pure ()
  | update i arguments => exact .update i arguments
  | replaceContents r contents => exact .replaceContents r contents
  | assignAttribute e name v => exact .assignAttribute e name v
  | assignEntry r index v => exact .assignEntry r index v
  | insertInRange r v reference => exact .insertInRange r v reference
  | removeInRange r v => exact .removeInRange r v
  | replaceInRange r new old => exact .replaceInRange r new old
  | edit act => exact .edit act
  | newRef v => exact (Live.Quiet.modifyGet fun _ => .of_eq rfl rfl rfl rfl).bind fun _ => .pure ()
  | takeCalls => exact (Live.Quiet.modifyGet fun _ => .of_eq rfl rfl rfl rfl).bind fun _ => .pure ()

/-! ## Compiling -/

namespace Session

/-- `s'` has the engines of `s`, where the caches keep what they kept, or less, and the engine `e`
may keep `t` as well. -/
def CachesKeep (s s' : Session) (e : EngineId) (t : TemplateId) : Prop :=
  ∀ e', (s'.engineAt e').settings = (s.engineAt e').settings ∧
    ∀ entry ∈ (s'.engineAt e').cache.entries,
      entry ∈ (s.engineAt e').cache.entries ∨ e' = e ∧ entry.2.template = t

/-- The template that an engine keeps for a sequence of fragments, if it keeps any. -/
def keptFor (s : Session) (e : EngineId) (sequence : SequenceId) (forced : Option Dialect) :
    Option TemplateId :=
  if (s.engineAt e).settings.caching then
    (s.engineAt e).find? (s.addressOf sequence, forced) sequence
  else none

/-- The template is now the one that the engine used last for the sequence. -/
def use (s : Session) (e : EngineId) (sequence : SequenceId) (forced : Option Dialect)
    (t : TemplateId) : Session :=
  s.modifyCache e (·.use (s.addressOf sequence, forced) ⟨sequence, t⟩)

/-- The engine keeps the template if it keeps any. -/
def keep (s : Session) (e : EngineId) (sequence : SequenceId) (forced : Option Dialect)
    (t : TemplateId) : Session :=
  if (s.engineAt e).settings.caching then
    s.modifyCache e (·.store (s.engineAt e).settings.cacheRoom.toNat
      (s.addressOf sequence, forced) ⟨sequence, t⟩)
  else s

/-- How compiling may end. -/
inductive Compiled (s : Session) (parse : MarkupReader) (e : EngineId) (sequence : SequenceId)
    (fragments : Value) (forced : Option Dialect) : EStateM.Result Fault Session TemplateId → Prop
  | failed {fault : Fault} {s' : Session} (continues : s.Continues s')
    (missed : s.keptFor e sequence forced = none) :
    Compiled s parse e sequence fragments forced (.error fault s')
  /-- The template was compiled before, for the same engine. -/
  | found {t : TemplateId} {s' : Session}
    (cached : ((s.addressOf sequence, forced), ⟨sequence, t⟩) ∈ (s.engineAt e).cache.entries)
    (templates_eq : s'.templates = s.templates) (instances_eq : s'.instances = s.instances)
    (caches : s.CachesKeep s' e t) (addressOf_eq : s'.addressOf = s.addressOf)
    (hit : s.keptFor e sequence forced = some t)
    (engines_eq : s'.engines = (s.use e sequence forced t).engines) :
    Compiled s parse e sequence fragments forced (.ok t s')
  /-- A new template was compiled. -/
  | made {texts : List String} {template : Template} {s' : Session}
    (texts_eq : s.fragmentsOf fragments = .ok texts)
    (compiled : (Template.compileWith parse (s.engineAt e).settings texts forced).1 = .ok template)
    (templates_eq : s'.templates = s.templates.push template)
    (instances_eq : s'.instances = s.instances) (caches : s.CachesKeep s' e s.templates.size)
    (addressOf_eq : s'.addressOf = s.addressOf) (missed : s.keptFor e sequence forced = none)
    (engines_eq : s'.engines = (s.keep e sequence forced s.templates.size).engines) :
    Compiled s parse e sequence fragments forced (.ok s.templates.size s')

theorem notify_all (s : Session) (notices : List Notice) :
    notices.foldl notify s = { s with notices := s.notices ++ notices } := by
  induction notices generalizing s with
  | nil =>
      rw [List.append_nil]
      rfl
  | cons notice rest ih =>
      rw [List.foldl_cons, ih]
      show ({ s with notices := s.notices ++ [notice] ++ rest } : Session) = _
      rw [List.append_assoc]
      rfl

theorem engineAt_modifyCache (s : Session) (e e' : EngineId)
    (change : Cache TemplateKey Kept → Cache TemplateKey Kept) :
    ((s.modifyCache e change).engineAt e').settings = (s.engineAt e').settings ∧
      (((s.modifyCache e change).engineAt e').cache = (s.engineAt e').cache ∨
        e' = e ∧ ((s.modifyCache e change).engineAt e').cache = change (s.engineAt e').cache) := by
  unfold modifyCache engineAt
  simp only [Array.getD_eq_getD_getElem?, Array.getElem?_modify]
  by_cases he : e = e'
  · rw [if_pos he]
    cases s.engines[e']? with
    | none => exact ⟨rfl, .inl rfl⟩
    | some engine => exact ⟨rfl, .inr ⟨he.symm, rfl⟩⟩
  · rw [if_neg he]
    exact ⟨rfl, .inl rfl⟩

/-- A change of a cache that brings in nothing but one template. -/
theorem cachesKeep_modifyCache {s : Session} {e : EngineId} {t : TemplateId}
    {change : Cache TemplateKey Kept → Cache TemplateKey Kept}
    (hchange : ∀ c : Cache TemplateKey Kept, ∀ entry ∈ (change c).entries,
      entry ∈ c.entries ∨ entry.2.template = t) : s.CachesKeep (s.modifyCache e change) e t := by
  intro e'
  obtain ⟨hsettings, hcache⟩ := s.engineAt_modifyCache e e' change
  refine ⟨hsettings, fun entry hentry => ?_⟩
  rcases hcache with hsame | ⟨he, hchanged⟩
  · exact .inl (hsame ▸ hentry)
  · rw [hchanged] at hentry
    exact (hchange _ entry hentry).imp id fun ht => ⟨he, ht⟩

theorem CachesKeep.of_engines_eq {s s' s'' : Session} {e : EngineId} {t : TemplateId}
    (h : s.CachesKeep s' e t) (heq : s''.engines = s'.engines) : s.CachesKeep s'' e t := by
  intro e'
  have hengine : s''.engineAt e' = s'.engineAt e' := by rw [engineAt, heq, engineAt]
  rw [hengine]
  exact h e'

theorem CachesKeep.refl {s s' : Session} (heq : s'.engines = s.engines) (e : EngineId)
    (t : TemplateId) : s.CachesKeep s' e t := by
  intro e'
  have hengine : s'.engineAt e' = s.engineAt e' := by rw [engineAt, heq, engineAt]
  rw [hengine]
  exact ⟨rfl, fun _ h => .inl h⟩

end Session

theorem Cache.mem_entries_of_find? {κ α : Type} [DecidableEq κ] {c : Cache κ α} {key : κ} {a : α}
    (h : c.find? key = some a) : (key, a) ∈ c.entries := by
  unfold find? at h
  generalize c.entries = entries at h ⊢
  induction entries with
  | nil => exact nomatch h
  | cons entry rest ih =>
      obtain ⟨k, b⟩ := entry
      rw [List.lookup_cons] at h
      by_cases hk : key = k
      · subst hk
        rw [beq_self_eq_true] at h
        cases h
        exact List.mem_cons_self ..
      · rw [beq_eq_false_iff_ne.mpr hk] at h
        exact List.mem_cons_of_mem _ (ih h)

theorem Cache.entries_use {κ α : Type} [DecidableEq κ] {c : Cache κ α} {key : κ} {a : α}
    {entry : κ × α} (h : entry ∈ (c.use key a).entries) : entry ∈ c.entries ∨ entry.2 = a := by
  rcases List.mem_append.mp h with h | h
  · exact .inl (List.mem_filter.mp h).1
  · rw [List.mem_singleton.mp h]
    exact .inr rfl

theorem Cache.entries_store {κ α : Type} [DecidableEq κ] {c : Cache κ α} {room : Nat} {key : κ}
    {a : α} {entry : κ × α} (h : entry ∈ (c.store room key a).entries) :
    entry ∈ c.entries ∨ entry.2 = a :=
  entries_use (List.mem_of_mem_drop h)

/-- What an engine finds is kept for the sequence that was asked for. -/
theorem Engine.find?_eq_some_iff {engine : Engine} {key : TemplateKey} {sequence : SequenceId}
    {t : TemplateId} : engine.find? key sequence = some t ↔
      engine.cache.find? key = some ⟨sequence, t⟩ := by
  unfold Engine.find?
  rw [Option.bind_eq_some_iff]
  constructor
  · rintro ⟨kept, hkept, h⟩
    split at h
    · subst sequence
      cases h
      exact hkept
    · cases h
  · intro h
    exact ⟨_, h, if_pos rfl⟩

namespace Live

open Session

variable {parse : MarkupReader} {e : EngineId} {fragments : Value} {forced : Option Dialect}

/-- Compiling without a look at the cache fails or makes a template. -/
theorem compileFreshWith_cases (parse : MarkupReader) (e : EngineId) (fragments : Value)
    (forced : Option Dialect) (s : Session) :
    (∃ fault s', compileFreshWith parse e fragments forced s = .error fault s' ∧ s.Continues s') ∨
    ∃ texts template s', s.fragmentsOf fragments = .ok texts ∧
      (Template.compileWith parse (s.engineAt e).settings texts forced).1 = .ok template ∧
      compileFreshWith parse e fragments forced s = .ok s.templates.size s' ∧
      s'.templates = s.templates.push template ∧ s'.instances = s.instances ∧
      s'.engines = s.engines ∧ s'.addressOf = s.addressOf := by
  unfold compileFreshWith
  cases htexts : s.fragmentsOf fragments with
  | error fault => exact .inl ⟨fault, s, bind_of_error (look_error htexts), .refl s⟩
  | ok texts =>
      rw [bind_of_ok (look_ok htexts), bind_of_ok (get_ok s)]
      cases hcompiled : Template.compileWith parse (s.engineAt e).settings texts forced with
      | mk result notices =>
          dsimp only
          rw [bind_of_ok (modify_ok _ s), notify_all]
          cases result with
          | error fault => exact .inl ⟨fault, _, rfl, .of_eq rfl rfl rfl rfl⟩
          | ok template =>
              exact .inr ⟨texts, template, _, rfl, by rw [hcompiled], rfl, rfl, rfl, rfl, rfl⟩

/-- Compiling ends in one of the three ways. -/
theorem compiled_compileWith (parse : MarkupReader) (e : EngineId) (sequence : SequenceId)
    (fragments : Value) (forced : Option Dialect) (s : Session) :
    s.Compiled parse e sequence fragments forced
      (compileWith parse e sequence fragments forced s) := by
  unfold compileWith
  rw [bind_of_ok (get_ok s), bind_of_ok (get_ok s)]
  dsimp only
  have hfresh := compileFreshWith_cases parse e fragments forced s
  cases hcaching : (s.engineAt e).settings.caching with
  | true =>
      rw [if_pos rfl]
      have hkept : s.keptFor e sequence forced
          = (s.engineAt e).find? (s.addressOf sequence, forced) sequence := if_pos hcaching
      cases hfound : (s.engineAt e).find? (s.addressOf sequence, forced) sequence with
      | some t =>
          have hcached := Engine.find?_eq_some_iff.mp hfound
          refine .found (Cache.mem_entries_of_find? hcached) rfl rfl ?_ rfl
            (hkept.trans hfound) rfl
          refine cachesKeep_modifyCache fun c entry hentry => ?_
          exact (Cache.entries_use hentry).imp id (congrArg Kept.template)
      | none =>
          rcases hfresh with ⟨fault, s', hrun, hcontinues⟩ | ⟨texts, template, s', htexts,
            htemplate, hrun, htemplates, hinstances, hengines, haddresses⟩
          · dsimp only
            rw [bind_of_error hrun]
            exact .failed hcontinues (hkept.trans hfound)
          · dsimp only
            rw [bind_of_ok hrun]
            let store (c : Cache TemplateKey Kept) :=
              c.store (s.engineAt e).settings.cacheRoom.toNat (s.addressOf sequence, forced)
                ⟨sequence, s.templates.size⟩
            have hkeep : s.CachesKeep (s.modifyCache e store) e s.templates.size :=
              cachesKeep_modifyCache fun c entry hentry =>
                (Cache.entries_store hentry).imp id (congrArg Kept.template)
            have hstored : (s'.modifyCache e store).engines = (s.modifyCache e store).engines := by
              unfold modifyCache
              rw [hengines]
            refine .made htexts htemplate htemplates hinstances (hkeep.of_engines_eq hstored)
              haddresses (hkept.trans hfound) ?_
            unfold keep
            rw [if_pos hcaching]
            exact hstored
  | false =>
      rw [if_neg Bool.false_ne_true]
      have hkept : s.keptFor e sequence forced = none :=
        if_neg (ne_true_of_eq_false hcaching)
      rcases hfresh with ⟨fault, s', hrun, hcontinues⟩ | ⟨texts, template, s', htexts,
        htemplate, hrun, htemplates, hinstances, hengines, haddresses⟩
      · rw [hrun]
        exact .failed hcontinues hkept
      · rw [hrun]
        refine .made htexts htemplate htemplates hinstances (.refl hengines e _) haddresses hkept ?_
        unfold keep
        rw [if_neg (ne_true_of_eq_false hcaching)]
        exact hengines

end Live

namespace Session

variable {s : Session}

/-- Compiling takes no template back and leaves the instances alone. -/
theorem Compiled.extends {parse : MarkupReader} {e : EngineId} {sequence : SequenceId}
    {fragments : Value} {forced : Option Dialect} {act : Live TemplateId}
    (h : s.Compiled parse e sequence fragments forced (act s)) : s.Extends (act.after s) := by
  unfold Live.after
  generalize act s = result at h
  cases h with
  | failed continues => exact continues.toExtends
  | found cached templates_eq instances_eq caches addressOf_eq =>
      exact ⟨fun t template ht => templates_eq ▸ ht,
        fun i x hx => ⟨x, instances_eq ▸ hx, rfl, rfl⟩, addressOf_eq⟩
  | made texts_eq compiled templates_eq instances_eq caches addressOf_eq =>
      refine ⟨fun t template ht => ?_, fun i x hx => ⟨x, instances_eq ▸ hx, rfl, rfl⟩,
        addressOf_eq⟩
      rw [templates_eq, Array.getElem?_push,
        if_neg (Nat.ne_of_lt (Array.getElem?_eq_some_iff.mp ht).1), ht]

/-- An engine is added behind the others, or refused. -/
theorem after_addEngine (s : Session) (settings : Settings) :
    (Operation.addEngine settings).run.after s = s ∨
      (Operation.addEngine settings).run.after s
        = { s with engines := s.engines.push { settings } } := by
  cases hcheck : settings.check with
  | ok =>
      have hadd : s.addEngine settings
          = .ok { s with engines := s.engines.push { settings } } := by
        unfold addEngine
        rw [hcheck]
        rfl
      have hrun : (Operation.addEngine settings).run s
          = .ok () { s with engines := s.engines.push { settings } } := by
        simp only [Operation.run, hadd]
      exact .inr (Live.after_of_ok hrun)
  | error fault =>
      have hadd : s.addEngine settings = .error fault := by
        unfold addEngine
        rw [hcheck]
        rfl
      have hrun : (Operation.addEngine settings).run s = .error fault s := by
        simp only [Operation.run, hadd]
      exact .inl (Live.after_of_error hrun)

/-- No operation takes a template back or changes the parts of an instance. -/
theorem extends_run (s : Session) (operation : Operation) :
    s.Extends (operation.run.after s) := by
  cases hconcerns : operation.concernsEngines with
  | false => exact (quiet_of_concernsEngines_eq_false hconcerns s).toExtends
  | true =>
      cases operation with
      | addEngine settings =>
          rcases after_addEngine s settings with hsame | hadded
          · rw [hsame]
            exact .refl s
          · rw [hadded]
            exact ⟨fun _ _ h => h, fun i x h => ⟨x, h, rfl, rfl⟩, rfl⟩
      | clearCache e => exact ⟨fun _ _ h => h, fun i x h => ⟨x, h, rfl, rfl⟩, rfl⟩
      | compile parse e sequence fragments forced =>
          show s.Extends (Live.after (_ >>= fun _ => pure ()) s)
          rw [Live.after_bind_pure]
          exact (Live.compiled_compileWith parse e sequence fragments forced s).extends
      | _ => cases hconcerns

theorem extends_afterAll (s : Session) (operations : List Operation) :
    s.Extends (s.afterAll operations) := by
  induction operations generalizing s with
  | nil => exact .refl s
  | cons operation rest ih => exact (s.extends_run operation).trans (ih _)

end Session

end LiveTemplate
