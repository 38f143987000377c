import LiveTemplate.Proofs.Isolation.Templates
import Mathlib.Logic.Relation

/-!
# Nothing leads into a static tree

Whoever works with a session has nodes in hand: those made outside of it, and everything that can be
reached, by parents and children, from these and from its instances.  An honest run does things to
such nodes only (`Moment.Honest`): it fills and edits, and it also moves nodes about in other ways.

`Moment.isolated` says what an honest run never does: it gets no hand on a node of a static tree.
So the static trees stay as they were compiled, and an instance that is made late is a bound copy of
the same trees as one made early, with no node in common with anything else.
-/

namespace LiveTemplate

set_option autoImplicit false

open Forest

/-- Two nodes are linked, over any number of parents and children. -/
def Forest.Joined (f : Forest) : NodeId → NodeId → Prop :=
  Relation.ReflTransGen fun n m => f.parent? n = some m ∨ m ∈ f.children n

/-- A content is made of nodes in hand and of instances. -/
def Content.Within (hand : Set NodeId) (s : Session) : Content → Prop
  | .node n => n ∈ hand
  | .block b => ∃ i < s.instances.size, b = (s.instanceAt i).block
  | _ => True

/-- What other code does with nodes in hand: it makes new ones, takes them out and puts them
elsewhere. -/
inductive Edit.Foreign (hand : Set NodeId) : Edit Unit → Prop
  | make (kind : NodeKind) : Foreign hand (do let _ ← Edit.grow kind)
  | parse (trees : List Tree) : Foreign hand (modify (·.plantFragment trees))
  /-- Anything can be copied, as this only reads it. -/
  | copy (n : NodeId) : Foreign hand (modify (·.copyBelow n))
  | insert {p n : NodeId} (hp : p ∈ hand) (hn : n ∈ hand) (place : Nat) :
    Foreign hand (Edit.insert p place n)
  | extract {n : NodeId} (hn : n ∈ hand) : Foreign hand (Edit.detach n)
  | erase {r : NodeRange} (hr : r.start ∈ hand) (index : Int) : Foreign hand (r.eraseNth index)

namespace Operation

/-- The operation is given nothing but nodes in hand.  A range goes by its start: wherever it is
said to stop, an edit of it stays among the siblings of its start. -/
def Within (hand : Set NodeId) (s : Session) : Operation → Prop
  | .instantiate _ arguments => ∀ v, arguments = some v → v.Within hand s
  | .update _ arguments => arguments.Within hand s
  | .replaceContents r contents => r.start ∈ hand ∧ ∀ c ∈ contents, c.Within hand s
  | .assignAttribute e _ _ => e ∈ hand
  | .assignEntry r _ v | .insertInRange r v _ | .removeInRange r v =>
    r.start ∈ hand ∧ v.Within hand s
  | .replaceInRange r new old => r.start ∈ hand ∧ new.Within hand s ∧ old.Within hand s
  | .edit act => act.Foreign hand
  | _ => True

/-- The nodes that the operation makes and does not keep to itself, as compiling does. -/
def makes (s : Session) (operation : Operation) : Set NodeId :=
  match operation with
  | .compile .. => ∅
  | _ => newSince s.forest (operation.run.after s).forest

end Operation

namespace Session

/-- A session in which nothing has been compiled or realized yet. -/
structure Pristine (s : Session) : Prop extends s.Blank where
  no_templates : s.templates = #[]
  no_statics : s.statics = #[]

theorem pristine_empty : Pristine {} where
  linked := linked_loose 0 0
  no_instances := rfl
  nothing_placed := rfl
  no_templates := rfl
  no_statics := rfl

/-- The node is linked to the nodes by which an instance is known. -/
def PartOf (s : Session) (i : InstanceId) (n : NodeId) : Prop :=
  ∃ m ∈ (s.instanceAt i).handles, s.forest.Joined m n

/-- The node is linked to the fragment of the static trees of a template. -/
def Static (s : Session) (t : TemplateId) (n : NodeId) : Prop :=
  ∃ root, s.statics[t]? = some root ∧ s.forest.Joined root n

/-- A template can be made an instance of, which is a bound copy of it and has no node in common
with static trees and the other instances. -/
def MakesApart (s : Session) (t : TemplateId) (template : Template) : Prop :=
  ∃ s' ends, Live.instantiate t none s = .ok s.instances.size s' ∧
    (s'.instanceAt s.instances.size).BoundCopy template.markers template.trees s'.forest ends ∧
    ∀ n, s'.PartOf s.instances.size n →
      (∀ t', ¬ s'.Static t' n) ∧ ∀ i < s.instances.size, ¬ s'.PartOf i n

end Session

/-- A session, and the nodes that those who work with it have in hand. -/
structure Moment where
  session : Session
  hand : Set NodeId

namespace Moment

/-- Whatever there is in the beginning is in hand. -/
def start (s : Session) : Moment := { session := s, hand := {n | n < s.forest.nextId} }

/-- Once nodes are in hand, so is everything they are linked to. -/
def reach (s : Session) (hand : Set NodeId) : Set NodeId :=
  {n | (∃ m ∈ hand, s.forest.Joined m n) ∨ ∃ i < s.instances.size, s.PartOf i n}

/-- The next moment. -/
def after (m : Moment) (operation : Operation) : Moment :=
  let s := operation.run.after m.session
  { session := s, hand := reach s (m.hand ∪ operation.makes m.session) }

/-- The moment behind several operations. -/
def afterAll (m : Moment) (operations : List Operation) : Moment := operations.foldl after m

/-- The session goes on as without a hand. -/
theorem session_afterAll (m : Moment) (operations : List Operation) :
    (m.afterAll operations).session = m.session.afterAll operations := by
  induction operations generalizing m with
  | nil => rfl
  | cons operation rest ih => exact ih (m.after operation)

/-- Every operation is given what is in hand at its moment. -/
def Honest (m : Moment) : List Operation → Prop
  | [] => True
  | operation :: rest => operation.Within m.hand m.session ∧ (m.after operation).Honest rest

end Moment

/-! ## Operations stay out of a region -/

section Step

variable {S hand : Set NodeId} {s : Session}

theorem Value.Within.outside {v : Value} (hv : v.Within hand s)
    (hhand : ∀ n ∈ hand, s.forest.Outside S n) : v.Outside S s :=
  ⟨fun n hn => hhand n (hv.nodes n hn), hv.instances⟩

theorem Content.Within.outside {c : Content} (hc : c.Within hand s) (hs : s.Aside S)
    (hhand : ∀ n ∈ hand, s.forest.Outside S n) : c.Outside S s.forest := by
  cases c with
  | node n => exact hhand n hc
  | block b =>
      obtain ⟨i, hi, rfl⟩ := hc
      exact fun n hn => hs.instanceAt hi n (List.mem_append_left _ hn)
  | _ => trivial

theorem Edit.Foreign.staysOut {act : Edit Unit} (h : act.Foreign hand) (hs : s.forest.Walled S)
    (hhand : ∀ n ∈ hand, s.forest.Outside S n) : Edit.StaysOut S s.forest act Edit.anyway := by
  cases h with
  | make kind => exact (Edit.StaysOut.grow hs kind).bind fun _ _ h _ => .pure h.walled trivial
  | parse trees => exact .modify (hs.plantFragment trees).1
  | copy n => exact .modify (hs.plantFragment _).1
  | insert hp hn place => exact .insert hs (hhand _ hp) (hhand _ hn) place
  | extract hn => exact .detach hs (hhand _ hn)
  | erase hr index => exact .eraseNth hs (hhand _ hr) index

/-- Every operation but compiling stays out. -/
theorem Operation.Within.staysOut {operation : Operation} (h : operation.Within hand s)
    (hs : s.Aside S) (hhand : ∀ n ∈ hand, s.forest.Outside S n)
    (hcompile : ∀ parse e sequence fragments forced,
      operation ≠ .compile parse e sequence fragments forced) :
    Live.StaysOut S s operation.run := by
  have hsame : ∀ {s' : Session}, s.SameLive s' → s.Besides S s' := hs.same
  cases operation with
  | addEngine settings =>
      unfold Live.StaysOut
      rcases s.after_addEngine settings with hafter | hafter
      all_goals
        rw [hafter]
        exact hsame ⟨rfl, rfl, rfl, rfl, rfl⟩
  | compile parse e sequence fragments forced =>
      exact (hcompile parse e sequence fragments forced rfl).elim
  | newSequence | clearCache | newRef | takeCalls => exact hsame ⟨rfl, rfl, rfl, rfl, rfl⟩
  | «instantiate» t arguments =>
      refine (Live.StaysOut.instantiate hs t fun v hv => (h v hv).outside hhand).bind ?_
      exact fun _ _ _ h => .pure h.aside _
  | update i arguments => exact .update hs (h.outside hhand)
  | replaceContents r contents =>
      exact .replaceContents hs (hhand _ h.1) fun c hc => (h.2 c hc).outside hs hhand
  | assignAttribute e name v => exact .assignAttribute hs (hhand e h) name v
  | assignEntry r index v => exact .assignEntry hs (hhand _ h.1) (h.2.outside hhand) index
  | insertInRange r v reference =>
      exact .insertInRange hs (hhand _ h.1) (h.2.outside hhand) reference
  | removeInRange r v => exact .removeInRange hs (hhand _ h.1) (h.2.outside hhand)
  | replaceInRange r new old =>
      exact .replaceInRange hs (hhand _ h.1) (h.2.1.outside hhand) (h.2.2.outside hhand)
  | edit act => exact .edit hs (Edit.Foreign.staysOut h hs.walled hhand)

end Step

/-! ## Links inside and outside of a region -/

namespace Forest

variable {S : Set NodeId} {f f' : Forest} {n m : NodeId}

/-- What is linked to a node outside is outside. -/
theorem Walled.joined (hf : f.Walled S) (h : f.Joined n m) (hn : f.Outside S n) :
    f.Outside S m := by
  induction h with
  | refl => exact hn
  | tail _ hlink ih => exact hlink.elim (hf.parent ih) (hf.child ih)

theorem Sealed.link (hf : f.Sealed S) (hn : n ∈ S)
    (h : f.parent? n = some m ∨ m ∈ f.children n) : m ∈ S := by
  unfold parent? children at h
  cases hx : f.node? n with
  | none =>
      rw [hx] at h
      exact h.elim nofun nofun
  | some x =>
      rw [hx] at h
      exact h.elim ((hf n hn x hx).1 m) ((hf n hn x hx).2 m)

/-- What is linked to a node of a sealed region is in it, and depends on its nodes only. -/
theorem Sealed.joined_congr (hf : f.Sealed S) (hsame : ∀ n ∈ S, f'.node? n = f.node? n)
    (hn : n ∈ S) (h : f'.Joined n m) : f.Joined n m ∧ m ∈ S := by
  induction h with
  | refl => exact ⟨.refl, hn⟩
  | tail _ hlink ih =>
      obtain ⟨hjoined, hmem⟩ := ih
      rw [parent?, children, hsame _ hmem] at hlink
      exact ⟨hjoined.tail hlink, hf.link hmem hlink⟩

theorem Sealed.congr (hf : f.Sealed S) (hsame : ∀ n ∈ S, f'.node? n = f.node? n) :
    f'.Sealed S := fun n hn x hx => hf n hn x (hsame n hn ▸ hx)

end Forest

namespace Session

variable {S S' S'' : Set NodeId} {s s' s'' : Session} {t : TemplateId} {n : NodeId}

/-- The static trees are in the region, and depend on its nodes only. -/
theorem Guarded.static_congr (h : s.Guarded S)
    (hsame : ∀ n ∈ S, s'.forest.node? n = s.forest.node? n)
    (hstatics : s'.statics[t]? = s.statics[t]?) (hn : s'.Static t n) : s.Static t n ∧ n ∈ S := by
  obtain ⟨root, hstatic, hjoined⟩ := hn
  rw [hstatics] at hstatic
  have ht : t < s.templates.size := h.size_eq ▸ (Array.getElem?_eq_some_iff.mp hstatic).1
  obtain ⟨root', hroot', hstatic', -, -⟩ := h.stands t _ (Array.getElem?_eq_getElem ht)
  cases hstatic'.symm.trans hstatic
  obtain ⟨hjoined, hmem⟩ := h.sealed.joined_congr hsame hroot' hjoined
  exact ⟨⟨root, hstatic, hjoined⟩, hmem⟩

/-- All nodes that there are form a sealed region. -/
theorem Guarded.sealed_older (h : s.Guarded S) : s.forest.Sealed {n | n < s.forest.nextId} := by
  intro n _ x hx
  by_cases hmem : n ∈ S
  · exact (h.sealed n hmem x hx).imp h.aside.walled.lt_nextId
  · exact (h.aside.walled.leads n x hx hmem).imp fun m hm => hm.1

/-- A new instance has only new nodes, which nothing old is linked to. -/
theorem Guarded.makesApart (h : s.Guarded S) {template : Template}
    (ht : s.templates[t]? = some template) : s.MakesApart t template := by
  have htemplate : s.templateAt t = template := by
    rw [templateAt, Array.getD_eq_getD_getElem?, ht]
    rfl
  obtain ⟨s', ends, hrun, hcopy, -⟩ := Live.instantiate_copied s t
  rw [htemplate, h.staticTrees_eq ht] at hcopy
  refine ⟨s', ends, hrun, hcopy, ?_⟩
  obtain ⟨ends', parts, f, hmade, -⟩ :=
    realize_copied s.forest (s.templateAt t).markers (s.staticTrees t)
  have hrealize := Edit.StaysOut.realize (walled_older s.forest) (s.templateAt t).markers
    (s.staticTrees t)
  unfold Edit.StaysOut at hrealize
  rw [hmade] at hrealize
  obtain ⟨hbesides, hhome, hparts⟩ := hrealize
  cases (Live.instantiate_eq hmade none).symm.trans hrun
  intro n ⟨m, hm, hjoined⟩
  rw [instanceAt_created_self] at hm
  have hnew : ¬ n < s.forest.nextId := by
    refine (hbesides.walled.joined hjoined ?_).2
    rcases List.mem_append.mp hm with hm | hm
    · exact hbesides.walled.handles_ofFragment hhome _ m hm
    · obtain ⟨p, hp, hm⟩ := List.mem_flatMap.mp hm
      exact hparts p hp m hm
  refine ⟨fun t' hstatic => hnew ?_, fun i hi ⟨m', hm', hjoined'⟩ => hnew ?_⟩
  · refine h.aside.walled.lt_nextId n (h.static_congr (fun k hk => ?_) ?_ hstatic).2
    · exact hbesides.node?_eq k (h.aside.walled.lt_nextId k hk)
    · rfl
  · rw [instanceAt_created_of_lt s t f _ _ none hi] at hm'
    exact (h.sealed_older.joined_congr hbesides.node?_eq (h.aside.instanceAt hi m' hm').1
      hjoined').2

/-- What was guarded is guarded still, as part of a region that may have grown. -/
structure StillGuarded (S S' : Set NodeId) (s s' : Session) : Prop where
  guarded : s'.Guarded S'
  subset : ∀ n ∈ S, n ∈ S'
  node?_eq : ∀ n ∈ S, s'.forest.node? n = s.forest.node? n
  outside : ∀ n, s.forest.Outside S n → s'.forest.Outside S' n
  templates : ∀ (t : TemplateId) (template : Template), s.templates[t]? = some template →
    s'.templates[t]? = some template
  statics : ∀ (t : TemplateId) (root : NodeId), s.statics[t]? = some root →
    s'.statics[t]? = some root

namespace StillGuarded

theorem refl (h : s.Guarded S) : StillGuarded S S s s :=
  ⟨h, fun _ h => h, fun _ _ => rfl, fun _ h => h, fun _ _ h => h, fun _ _ h => h⟩

theorem trans (h : StillGuarded S S' s s') (h' : StillGuarded S' S'' s' s'') :
    StillGuarded S S'' s s'' where
  guarded := h'.guarded
  subset n hn := h'.subset n (h.subset n hn)
  node?_eq n hn := (h'.node?_eq n (h.subset n hn)).trans (h.node?_eq n hn)
  outside n hn := h'.outside n (h.outside n hn)
  templates t template ht := h'.templates t template (h.templates t template ht)
  statics t root ht := h'.statics t root (h.statics t root ht)

theorem of_besides (h : s.Guarded S) (hs : s.Besides S s') : StillGuarded S S s s' where
  guarded := h.besides hs
  subset _ hn := hn
  node?_eq := hs.forest.node?_eq
  outside _ hn := hs.forest.outside hn
  templates t template ht := by rw [hs.templates_eq, ht]
  statics t root ht := by rw [hs.statics_eq, ht]

theorem addTemplate (h : s.Guarded S) (template : Template) :
    StillGuarded S (S ∪ newSince s.forest (s.addTemplate template).forest) s
      (s.addTemplate template) := by
  obtain ⟨hnew, -⟩ := (walled_older s.forest).plantFragment template.trees
  exact
    { guarded := h.addTemplate template
      subset := fun n hn => .inl hn
      node?_eq := fun n hn => hnew.node?_eq n (h.aside.walled.lt_nextId n hn)
      outside := fun n hn => hnew.outside_union hn
      templates := fun t other ht => by
        show (s.templates.push template)[t]? = _
        rw [Array.getElem?_push, if_neg (Nat.ne_of_lt (Array.getElem?_eq_some_iff.mp ht).1), ht]
      statics := fun t root ht => by
        show (s.statics.push _)[t]? = _
        rw [Array.getElem?_push, if_neg (Nat.ne_of_lt (Array.getElem?_eq_some_iff.mp ht).1), ht] }

/-- Compiling keeps the static trees that there are and guards those it adds. -/
theorem compile (h : s.Guarded S) (parse : MarkupReader) (e : EngineId) (sequence : SequenceId)
    (fragments : Value) (forced : Option Dialect) :
    ∃ S', StillGuarded S S' s ((Live.compileWith parse e sequence fragments forced).after s) := by
  rcases Live.after_compileWith parse e sequence fragments forced s with hsame | ⟨template, hsame⟩
  · exact ⟨S, of_besides h (h.aside.same hsame)⟩
  · have hadded := addTemplate h template
    exact ⟨_, hadded.trans (of_besides hadded.guarded (hadded.guarded.aside.same hsame))⟩

end StillGuarded

end Session

/-! ## Honest runs -/

namespace Moment

variable {S : Set NodeId} {m : Moment}

/-- The static trees are guarded, and nobody has a node of them in hand. -/
structure Guarded (S : Set NodeId) (m : Moment) : Prop extends m.session.Guarded S where
  hand_outside : ∀ n ∈ m.hand, m.session.forest.Outside S n

/-- Nothing guarded can be reached from outside. -/
theorem outside_of_reach {s : Session} (hs : s.Aside S) {hand : Set NodeId}
    (hhand : ∀ n ∈ hand, s.forest.Outside S n) : ∀ n ∈ reach s hand, s.forest.Outside S n := by
  rintro n (⟨m, hm, hjoined⟩ | ⟨i, hi, m, hm, hjoined⟩)
  · exact hs.walled.joined hjoined (hhand m hm)
  · exact hs.walled.joined hjoined (hs.instanceAt hi m hm)

/-- What one operation preserves. -/
theorem Guarded.step (h : m.Guarded S) {operation : Operation}
    (hoperation : operation.Within m.hand m.session) :
    ∃ S', (m.after operation).Guarded S' ∧
      Session.StillGuarded S S' m.session (m.after operation).session := by
  have hnext : ∀ {S'}, Session.StillGuarded S S' m.session (operation.run.after m.session) →
      (∀ n ∈ operation.makes m.session, (operation.run.after m.session).forest.Outside S' n) →
      (m.after operation).Guarded S' := fun hstill hmakes =>
    { toGuarded := hstill.guarded
      hand_outside := outside_of_reach hstill.guarded.aside fun n hn =>
        hn.elim (fun hn => hstill.outside n (h.hand_outside n hn)) (hmakes n) }
  by_cases hcompile : ∃ parse e sequence fragments forced,
      operation = .compile parse e sequence fragments forced
  · obtain ⟨parse, e, sequence, fragments, forced, rfl⟩ := hcompile
    obtain ⟨S', hstill⟩ :=
      Session.StillGuarded.compile h.toGuarded parse e sequence fragments forced
    rw [← Live.after_bind_pure] at hstill
    exact ⟨S', hnext hstill nofun, hstill⟩
  · have hstays := hoperation.staysOut h.aside h.hand_outside
      fun parse e sequence fragments forced heq =>
        hcompile ⟨parse, e, sequence, fragments, forced, heq⟩
    have hstill := Session.StillGuarded.of_besides h.toGuarded hstays
    refine ⟨S, hnext hstill fun n hn => ?_, hstill⟩
    have hmade : n ∈ newSince m.session.forest (operation.run.after m.session).forest := by
      unfold Operation.makes at hn
      split at hn
      · exact nomatch hn
      · exact hn
    exact ⟨hmade.2, fun hmem => Nat.not_lt.mpr hmade.1 (h.aside.walled.lt_nextId n hmem)⟩

/-- What an honest run preserves. -/
theorem Guarded.run (h : m.Guarded S) {operations : List Operation}
    (honest : m.Honest operations) :
    ∃ S', (m.afterAll operations).Guarded S' ∧
      Session.StillGuarded S S' m.session (m.afterAll operations).session := by
  induction operations generalizing m S with
  | nil => exact ⟨S, h, .refl h.toGuarded⟩
  | cons operation rest ih =>
      obtain ⟨S₁, hnext, hstep⟩ := h.step honest.1
      obtain ⟨S₂, hlast, hrest⟩ := ih hnext honest.2
      exact ⟨S₂, hlast, hstep.trans hrest⟩

/-- In the beginning there is nothing to guard. -/
theorem guarded_start {s : Session} (hs : s.Pristine) : (start s).Guarded ∅ where
  aside :=
    { walled := hs.linked.walled
      instances := fun i x hx => by
        rw [start, hs.no_instances] at hx
        exact nomatch hx
      placed := fun r b hb => by
        rw [start, Session.placedIn, hs.nothing_placed] at hb
        exact nomatch hb }
  sealed _ hn := nomatch hn
  size_eq := by
    rw [start, hs.no_statics, hs.no_templates]
    rfl
  stands t template ht := by
    rw [start, hs.no_templates] at ht
    exact nomatch ht
  hand_outside _ hn := ⟨hn, nofun⟩

theorem honest_append {m : Moment} {front back : List Operation} :
    m.Honest (front ++ back) ↔ m.Honest front ∧ (m.afterAll front).Honest back := by
  induction front generalizing m with
  | nil => exact ⟨fun h => ⟨trivial, h⟩, fun h => h.2⟩
  | cons operation rest ih =>
      show _ ∧ (m.after operation).Honest (rest ++ back) ↔ _
      rw [ih, ← and_assoc]
      rfl

/-- From the moment `m` on the static trees of the template are out of reach. -/
structure Isolates (m m' : Moment) (t : TemplateId) (template : Template) : Prop where
  /-- The static trees show as they were compiled. -/
  staticTrees_eq : m'.session.staticTrees t = template.trees
  /-- They consist of the same nodes, which have not changed. -/
  static_iff : ∀ n, m'.session.Static t n ↔ m.session.Static t n
  node?_eq : ∀ n, m.session.Static t n → m'.session.forest.node? n = m.session.forest.node? n
  not_in_hand : ∀ n, m'.session.Static t n → n ∉ m'.hand
  /-- Instances that are made early and late are copies of the same trees. -/
  early : m.session.MakesApart t template
  late : m'.session.MakesApart t template

/-- However an honest run goes on, it does not get at the static trees of a template: they consist
of the same unchanged nodes, nobody has one of these in hand, and instances are made of the same
trees as ever, out of nodes that are nowhere else. -/
theorem isolated {s : Session} (hs : s.Pristine) (front back : List Operation)
    (honest : (start s).Honest (front ++ back)) :
    let m := (start s).afterAll front
    ∀ t template, m.session.templates[t]? = some template →
      m.Isolates (m.afterAll back) t template := by
  intro m t template ht
  obtain ⟨hfront, hback⟩ := honest_append.mp honest
  obtain ⟨S, hm, -⟩ := (guarded_start hs).run hfront
  obtain ⟨S', hm', hstill⟩ := hm.run hback
  have ht' := hstill.templates t template ht
  obtain ⟨root, hroot, hstatic, -, -⟩ := hm.stands t template ht
  have hstatics : (m.afterAll back).session.statics[t]? = m.session.statics[t]? :=
    (hstill.statics t root hstatic).trans hstatic.symm
  have hmem : ∀ n, m.session.Static t n → n ∈ S := fun n hn =>
    (hm.static_congr (fun _ _ => rfl) rfl hn).2
  exact
    { staticTrees_eq := hm'.staticTrees_eq ht'
      static_iff := fun n =>
        ⟨fun hn => (hm.static_congr hstill.node?_eq hstatics hn).1, fun ⟨root', hroot', hn⟩ => by
          cases hroot'.symm.trans hstatic
          refine ⟨root, hstill.statics t root hstatic, ?_⟩
          have hsealed := hm.sealed.congr hstill.node?_eq
          exact (hsealed.joined_congr (fun k hk => (hstill.node?_eq k hk).symm) hroot hn).1⟩
      node?_eq := fun n hn => hstill.node?_eq n (hmem n hn)
      not_in_hand := fun n hn hmem => (hm'.hand_outside n hmem).2
        (hm'.static_congr (fun _ _ => rfl) rfl hn).2
      early := hm.makesApart ht
      late := hm'.makesApart ht' }

/-- A paragraph around a hole is compiled. -/
def compileParagraph : Operation :=
  .compile (fun _ _ _ => .ok [.element { name := "p" }
    [.element { name := "i", attributes := [("data-dtpp-nodes", "")] } []]]) 0 0
    (.list [.text "<p>", .text "</p>"]) (some .html)

/-- An instance of the paragraph is filled with a text of the caller's own and taken out of its
fragment, whereupon the static paragraph still stands. -/
theorem isolated_paragraph :
    let front := [compileParagraph, .instantiate 0 none]
    let back := [.edit (do let _ ← Edit.grow (.leaf (.text "x"))),
      .replaceContents ⟨6, 7⟩ [.node 8], .edit (Edit.detach 4)]
    Session.Pristine {} ∧ (start {}).Honest (front ++ back) ∧
    ∃ template, ((start {}).afterAll front).session.templates[0]? = some template ∧
      ((start {}).afterAll front).Isolates (((start {}).afterAll front).afterAll back) 0
        template := by
  intro front back
  have hs := Session.pristine_empty
  have honest : (start {}).Honest (front ++ back) := by
    refine ⟨trivial, nofun, .make _, ⟨?_, ?_⟩, .extract ?_, trivial⟩
    · exact .inr ⟨0, by decide +kernel, 6, by decide +kernel, .refl⟩
    · rintro c (_ | ⟨_, ⟨⟩⟩)
      exact .inl ⟨8, .inr ⟨by decide +kernel, by decide +kernel⟩, .refl⟩
    · exact .inr ⟨0, by decide +kernel, 4, by decide +kernel, .refl⟩
  have hsize : 0 < ((start {}).afterAll front).session.templates.size := by decide +kernel
  have htemplate := Array.getElem?_eq_getElem hsize
  exact ⟨hs, honest, _, htemplate, isolated hs front back honest 0 _ htemplate⟩

end Moment

end LiveTemplate
