import LiveTemplate.Proofs.Instance.Counted
import LiveTemplate.Proofs.Isolation.Runs
import Mathlib.Data.List.Induction

/-!
# One part for every placeholder, at any time

A template is accepted when its markers are as many as the placeholders between its fragments.  In a
session that has come about by operations, every template was made by one of them from certain
fragments (`MadeFrom`), and what an engine keeps was made with its own markers (`Accounted`).
`length_parts_of_compile` draws the conclusion: whenever compiling gives a template, every instance
made of it later has one part less than the template has had fragments, and it keeps that many
whatever is done afterwards.  Instances are made of the static trees as these stand, and nothing
that is done to instances gets at them.
-/

namespace LiveTemplate

set_option autoImplicit false

/-! ## What compiling promises -/

/-- What is known of a template that was compiled from the given texts. -/
structure Template.Accepted (settings : Settings) (texts : List String) (t : Template) : Prop where
  placeholders_eq : t.placeholders = texts.length - 1
  markers_eq : t.markers = settings.markers
  count_eq : t.markers.count t.trees = t.placeholders

theorem Template.accepted_buildWith {parse : MarkupReader} {settings : Settings}
    {texts : List String} {d : Dialect} {t : Template}
    (h : buildWith parse settings texts d = .ok t) : t.Accepted settings texts := by
  unfold buildWith at h
  cases hscan : (scan settings.markers d texts).1 with
  | error e =>
      rw [hscan] at h
      cases h
  | ok scanned =>
      rw [hscan] at h
      cases hparse : parse settings.htmlParser d (String.join scanned) with
      | error fault =>
          simp only [hparse, pure_bind] at h
          cases h
      | ok trees =>
          simp only [hparse, pure_bind] at h
          change (if settings.markers.count trees = texts.length - 1 then _ else _) = _ at h
          split at h
          · cases h
            exact ⟨rfl, rfl, ‹_›⟩
          · cases h

theorem Template.accepted_compileWith {parse : MarkupReader} {settings : Settings}
    {texts : List String} {forced : Option Dialect} {t : Template}
    (h : (compileWith parse settings texts forced).1 = .ok t) : t.Accepted settings texts := by
  unfold compileWith at h
  split at h
  · cases h
  · exact accepted_buildWith h

namespace Session

/-! ## Where templates come from -/

/-- The template `t` was made by one of the operations, which was given the fragments `texts`. -/
def MadeFrom (operations : List Operation) (t : TemplateId) (texts : List String) : Prop :=
  ∃ front parse e sequence fragments forced back,
    operations = front ++ .compile parse e sequence fragments forced :: back ∧
    (afterAll {} front).templates.size = t ∧
    (afterAll {} (front ++ [.compile parse e sequence fragments forced])).templates.size = t + 1 ∧
    (afterAll {} front).fragmentsOf fragments = .ok texts

theorem MadeFrom.append {operations : List Operation} {t : TemplateId} {texts : List String}
    (h : MadeFrom operations t texts) (more : List Operation) :
    MadeFrom (operations ++ more) t texts := by
  obtain ⟨front, parse, e, sequence, fragments, forced, back, heq, hmade⟩ := h
  refine ⟨front, parse, e, sequence, fragments, forced, back ++ more, ?_, hmade⟩
  rw [heq, List.append_assoc]
  rfl

/-- What holds of the templates of a session behind the operations. -/
structure Accounted (operations : List Operation) (s : Session) : Prop where
  made : ∀ (t : TemplateId) (template : Template), s.templates[t]? = some template →
    ∃ settings texts, MadeFrom operations t texts ∧ template.Accepted settings texts
  cached : ∀ e, ∀ entry ∈ (s.engineAt e).cache.entries,
    ∃ template, s.templates[entry.2.template]? = some template ∧
      template.markers = (s.engineAt e).settings.markers

namespace Accounted

variable {operations : List Operation} {s s' : Session}

theorem nil : Accounted [] {} where
  made _ _ h := nomatch h
  cached _ _ h := nomatch h

/-- Operations that make no template, and bring none into a cache that was not there. -/
theorem keep (h : Accounted operations s) (operation : Operation)
    (htemplates : s'.templates = s.templates)
    (hcaches : ∀ e, ∀ entry ∈ (s'.engineAt e).cache.entries,
      (s'.engineAt e).settings = (s.engineAt e).settings ∧
        ∃ old ∈ (s.engineAt e).cache.entries, old.2.template = entry.2.template) :
    Accounted (operations ++ [operation]) s' where
  made t template ht := by
    rw [htemplates] at ht
    obtain ⟨settings, texts, hmade, haccepted⟩ := h.made t template ht
    exact ⟨settings, texts, hmade.append _, haccepted⟩
  cached e entry hentry := by
    obtain ⟨hsettings, old, hold, heq⟩ := hcaches e entry hentry
    obtain ⟨template, htemplate, hmarkers⟩ := h.cached e old hold
    exact ⟨template, by rw [htemplates, ← heq, htemplate], by rw [hsettings, hmarkers]⟩

/-- Compiling adds at most the template that it makes. -/
theorem compile {parse : MarkupReader} {e : EngineId} {sequence : SequenceId} {fragments : Value}
    {forced : Option Dialect} (h : Accounted operations (afterAll {} operations)) :
    Accounted (operations ++ [.compile parse e sequence fragments forced])
      ((Live.compileWith parse e sequence fragments forced).after (afterAll {} operations)) := by
  have hcompiled := Live.compiled_compileWith parse e sequence fragments forced
    (afterAll {} operations)
  have hafter : afterAll {} (operations ++ [.compile parse e sequence fragments forced])
      = (Live.compileWith parse e sequence fragments forced).after (afterAll {} operations) := by
    rw [afterAll_append]
    exact Live.after_bind_pure _ _
  unfold Live.after at hafter ⊢
  generalize Live.compileWith parse e sequence fragments forced (afterAll {} operations) = result
    at hcompiled hafter ⊢
  cases hcompiled with
  | failed continues =>
      refine h.keep _ continues.templates_eq fun e' entry hentry => ?_
      rw [engineAt, continues.engines_eq] at hentry ⊢
      exact ⟨rfl, entry, hentry, rfl⟩
  | found cached templates_eq instances_eq caches =>
      refine h.keep _ templates_eq fun e' entry hentry => ?_
      obtain ⟨hsettings, hkeep⟩ := caches e'
      refine ⟨hsettings, ?_⟩
      rcases hkeep entry hentry with hold | ⟨rfl, heq⟩
      · exact ⟨entry, hold, rfl⟩
      · exact ⟨_, cached, heq.symm⟩
  | @made texts template s' texts_eq compiled templates_eq instances_eq caches =>
      have haccepted := Template.accepted_compileWith compiled
      have hmade : MadeFrom (operations ++ [.compile parse e sequence fragments forced])
          (afterAll {} operations).templates.size texts := by
        refine ⟨operations, parse, e, sequence, fragments, forced, [], rfl, rfl, ?_, texts_eq⟩
        rw [hafter, templates_eq, Array.size_push]
      have hold : ∀ (t : TemplateId) (old : Template),
          (afterAll {} operations).templates[t]? = some old → s'.templates[t]? = some old := by
        intro t old ht
        rw [templates_eq, Array.getElem?_push,
          if_neg (Nat.ne_of_lt (Array.getElem?_eq_some_iff.mp ht).1), ht]
      refine ⟨fun t t' ht => ?_, fun e' entry hentry => ?_⟩
      · rw [templates_eq, Array.getElem?_push] at ht
        split at ht
        · rename_i heq
          cases ht
          exact ⟨_, texts, heq ▸ hmade, haccepted⟩
        · obtain ⟨settings, texts', hmade', haccepted'⟩ := h.made t t' ht
          exact ⟨settings, texts', hmade'.append _, haccepted'⟩
      · obtain ⟨hsettings, hkeep⟩ := caches e'
        rcases hkeep entry hentry with hmem | ⟨rfl, heq⟩
        · obtain ⟨old, holdAt, hmarkers⟩ := h.cached e' entry hmem
          exact ⟨old, hold _ old holdAt, by rw [hsettings, hmarkers]⟩
        · refine ⟨template, ?_, by rw [hsettings, haccepted.markers_eq]⟩
          rw [heq, templates_eq, Array.getElem?_push, if_pos rfl]

end Accounted

/-- Every session that has come about by operations is accounted for. -/
theorem accounted_afterAll (operations : List Operation) :
    Accounted operations (afterAll {} operations) := by
  induction operations using List.reverseRecOn with
  | nil => exact .nil
  | append_singleton operations operation ih =>
      rw [afterAll_append]
      show Accounted _ (operation.run.after (afterAll {} operations))
      cases hconcerns : operation.concernsEngines with
      | false =>
          have hcontinues := quiet_of_concernsEngines_eq_false hconcerns (afterAll {} operations)
          refine ih.keep _ hcontinues.templates_eq fun e entry hentry => ?_
          rw [engineAt, hcontinues.engines_eq] at hentry ⊢
          exact ⟨rfl, entry, hentry, rfl⟩
      | true =>
          cases operation with
          | compile parse e sequence fragments forced =>
              rw [show (Operation.compile parse e sequence fragments forced).run.after _ = _ from
                Live.after_bind_pure _ _]
              exact ih.compile
          | clearCache e =>
              refine ih.keep _ rfl fun e' entry hentry => ?_
              obtain ⟨hsettings, hcache⟩ :=
                (afterAll {} operations).engineAt_modifyCache e e' fun _ => {}
              refine ⟨hsettings, entry, ?_, rfl⟩
              rcases hcache with hsame | ⟨-, hempty⟩
              · exact hsame ▸ hentry
              · change entry ∈ (((afterAll {} operations).modifyCache e fun _ => {}).engineAt
                  e').cache.entries at hentry
                rw [hempty] at hentry
                cases hentry
          | addEngine settings =>
              rcases (afterAll {} operations).after_addEngine settings with hsame | hadded
              · rw [hsame]
                exact ih.keep _ rfl fun e entry hentry => ⟨rfl, entry, hentry, rfl⟩
              · rw [hadded]
                refine ih.keep _ rfl fun e entry hentry => ?_
                simp only [engineAt, Array.getD_eq_getD_getElem?, Array.getElem?_push] at hentry ⊢
                split at hentry
                · cases hentry
                · rw [if_neg ‹_›]
                  exact ⟨rfl, entry, hentry, rfl⟩
          | _ => cases hconcerns

/-! ## The parts of instances -/

/-- An honest run leaves the static trees of every template as they were compiled. -/
theorem staticTrees_of_honest {operations : List Operation}
    (honest : (Moment.start {}).Honest operations) {t : TemplateId} {template : Template}
    (ht : (afterAll {} operations).templates[t]? = some template) :
    (afterAll {} operations).staticTrees t = template.trees := by
  obtain ⟨S, hguarded, -⟩ := (Moment.guarded_start pristine_empty).run honest
  have hsession := (Moment.start {}).session_afterAll operations
  change _ = afterAll {} operations at hsession
  rw [← hsession] at ht ⊢
  exact hguarded.staticTrees_eq ht

/-- An instance of a template has one part for every marker on the static trees, whether or not it
can be filled with the arguments. -/
theorem exists_of_instantiate {s : Session} {t : TemplateId} {template : Template}
    (ht : s.templates[t]? = some template)
    (hm : template.markers.attributes ≠ template.markers.nodes) (arguments : Option Value) :
    ∃ x, ((Operation.instantiate t arguments).run.after s).instances[s.instances.size]? = some x ∧
      x.template = t ∧ x.parts.length = template.markers.count (s.staticTrees t) := by
  have htemplate : s.templateAt t = template := by
    rw [templateAt, Array.getD_eq_getD_getElem?, ht]
    rfl
  obtain ⟨parts, f, hrun, hlength⟩ := realize_counted s.forest hm (s.staticTrees t)
  rw [← htemplate] at hrun
  show ∃ x, ((Live.instantiate t arguments >>= fun _ => pure ()).after s).instances[_]? = _ ∧ _
  rw [Live.after_bind_pure, Live.after, Live.instantiate_eq hrun arguments]
  have hmade : (s.created t f s.forest.nextId parts arguments).instances[s.instances.size]? = some
      { template := t
        block := Block.ofFragment s.instances.size s.forest.nextId f
        parts
        fills := arguments.isSome
        arguments := arguments.getD .null } := by
    simp [created, addInstance, notify]
  cases arguments with
  | none => exact ⟨_, hmade, rfl, hlength⟩
  | some values =>
      obtain ⟨x, hx, hxt, hxparts⟩ :=
        ((Live.Quiet.fillFrom values 0 parts).bind fun _ => .pure s.instances.size)
          (s.created t f s.forest.nextId parts (some values)) |>.instances _ _ hmade
      exact ⟨x, hx, hxt, hxparts ▸ hlength⟩

/-- Whenever compiling gives a template, by an engine whose two markers differ and whatever its
parsers do, then every instance that is made of the template at any later moment has one part for
every marker that is counted on the static trees as they stand, and it still has when any other
operations have followed.  As long as only nodes in hand have been worked on, that is one part for
every placeholder between the fragments that the template was compiled from.  A new template is
compiled from the fragments of this call. -/
theorem length_parts_of_compile {history : List Operation} {parse : MarkupReader} {e : EngineId}
    {sequence : SequenceId} {fragments : Value} {forced : Option Dialect} {t : TemplateId}
    {s : Session}
    (hcompile : Live.compileWith parse e sequence fragments forced (afterAll {} history) = .ok t s)
    (hmarkers : ((afterAll {} history).engineAt e).settings.markers.attributes
      ≠ ((afterAll {} history).engineAt e).settings.markers.nodes) :
    ∃ texts, MadeFrom (history ++ [.compile parse e sequence fragments forced]) t texts ∧
      (t = (afterAll {} history).templates.size →
        (afterAll {} history).fragmentsOf fragments = .ok texts) ∧
      ∀ earlier arguments later, ∃ x,
        (s.afterAll (earlier ++ .instantiate t arguments :: later)).instances[
          (s.afterAll earlier).instances.size]? = some x ∧
        x.template = t ∧
        x.parts.length = ((afterAll {} history).engineAt e).settings.markers.count
          ((s.afterAll earlier).staticTrees t) ∧
        ((Moment.start {}).Honest
            (history ++ .compile parse e sequence fragments forced :: earlier) →
          x.parts.length = texts.length - 1) := by
  have hs : afterAll {} (history ++ [.compile parse e sequence fragments forced]) = s := by
    rw [afterAll_append]
    exact (Live.after_bind_pure _ _).trans (Live.after_of_ok hcompile)
  have hcompiled :=
    Live.compiled_compileWith parse e sequence fragments forced (afterAll {} history)
  rw [hcompile] at hcompiled
  obtain ⟨template, texts, htemplate, hmade, hcount, hsame, hfresh⟩ : ∃ template texts,
      s.templates[t]? = some template ∧
      MadeFrom (history ++ [.compile parse e sequence fragments forced]) t texts ∧
      template.markers.count template.trees = texts.length - 1 ∧
      template.markers = ((afterAll {} history).engineAt e).settings.markers ∧
      (t = (afterAll {} history).templates.size →
        (afterAll {} history).fragmentsOf fragments = .ok texts) := by
    cases hcompiled with
    | found cached templates_eq instances_eq caches =>
        obtain ⟨template, htemplate, hsame⟩ := (accounted_afterAll history).cached e _ cached
        obtain ⟨settings, texts, hmade, haccepted⟩ :=
          (accounted_afterAll history).made t template htemplate
        refine ⟨template, texts, templates_eq ▸ htemplate, hmade.append _, ?_, hsame, fun heq => ?_⟩
        · rw [haccepted.count_eq, haccepted.placeholders_eq]
        · exact absurd heq (Nat.ne_of_lt (Array.getElem?_eq_some_iff.mp htemplate).1)
    | @made texts template _ texts_eq compiled templates_eq instances_eq caches =>
        have haccepted := Template.accepted_compileWith compiled
        refine ⟨template, texts, ?_, ⟨history, parse, e, sequence, fragments, forced, [], rfl, rfl,
          ?_, texts_eq⟩, ?_, haccepted.markers_eq, fun _ => texts_eq⟩
        · rw [templates_eq, Array.getElem?_push, if_pos rfl]
        · rw [hs, templates_eq, Array.size_push]
        · rw [haccepted.count_eq, haccepted.placeholders_eq]
  refine ⟨texts, hmade, hfresh, fun earlier arguments later => ?_⟩
  have hheld := (s.extends_afterAll earlier).templates t template htemplate
  obtain ⟨x, hx, hxt, hxparts⟩ := exists_of_instantiate hheld (hsame ▸ hmarkers) arguments
  rw [afterAll_append, afterAll_cons]
  obtain ⟨x', hx', hxt', hxparts'⟩ := (extends_afterAll _ later).instances _ x hx
  refine ⟨x', hx', hxt'.trans hxt, by rw [hxparts', hxparts, hsame], fun honest => ?_⟩
  have hsession : s.afterAll earlier
      = afterAll {} (history ++ .compile parse e sequence fragments forced :: earlier) := by
    rw [List.append_cons, afterAll_append, hs]
  have hstatic : (s.afterAll earlier).staticTrees t = template.trees := by
    rw [hsession] at hheld ⊢
    exact staticTrees_of_honest honest hheld
  rw [hxparts', hxparts, hstatic, hcount]

/-- The template of a list item with two placeholders is compiled by the first engine of a session.
One instance is made of it and gets another attribute, and then a second one is made. -/
theorem length_parts_of_compile_item :
    let fragments : Value := .list [.text "<li id=", .text ">", .text "</li>"]
    let earlier : List Operation := [.instantiate 0 none, .assignAttribute 4 "class" (.text "x")]
    (Moment.start {}).Honest
      ([.addEngine {}] ++ .compile parseMarkup 0 0 fragments (some .html) :: earlier) ∧
    ∃ s, Live.compileWith parseMarkup 0 0 fragments (some .html) (afterAll {} [.addEngine {}])
        = .ok 0 s ∧
      ∀ arguments later, ∃ x,
        (s.afterAll (earlier ++ .instantiate 0 arguments :: later)).instances[
          (s.afterAll earlier).instances.size]? = some x ∧
        x.template = 0 ∧ x.parts.length = 2 := by
  intro fragments earlier
  have honest : (Moment.start {}).Honest
      ([.addEngine {}] ++ .compile parseMarkup 0 0 fragments (some .html) :: earlier) :=
    ⟨trivial, trivial, nofun, .inr ⟨0, by decide +kernel, 4, by decide +kernel, .refl⟩, trivial⟩
  have hgiven : EStateM.run' (Live.compileWith parseMarkup 0 0 fragments (some .html))
      (afterAll {} [.addEngine {}]) = some 0 := by decide +kernel
  delta EStateM.run' EStateM.run at hgiven
  cases hcompile : Live.compileWith parseMarkup 0 0 fragments (some .html)
      (afterAll {} [.addEngine {}]) with
  | error fault s =>
      rw [hcompile] at hgiven
      cases hgiven
  | ok t s =>
      rw [hcompile] at hgiven
      obtain rfl : t = 0 := Option.some.inj hgiven
      obtain ⟨texts, -, hfresh, hparts⟩ := length_parts_of_compile hcompile (by decide +kernel)
      obtain rfl : ["<li id=", ">", "</li>"] = texts := Except.ok.inj (hfresh rfl)
      refine ⟨honest, s, rfl, fun arguments later => ?_⟩
      obtain ⟨x, hx, hxt, -, hlength⟩ := hparts earlier arguments later
      exact ⟨x, hx, hxt, hlength honest⟩

end Session

end LiveTemplate
