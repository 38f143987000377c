import LiveTemplate.Cache
import LiveTemplate.Range.Reconcile
import LiveTemplate.Template
import LiveTemplate.Value.Basic

/-!
# Sessions

A session holds everything that templates and their instances share: the forest of live nodes,
the compiled templates, the engines that compile them, the instances, and the references and
callbacks that receive elements.  Whatever is made in a session keeps the number it got when it
was made, and that number is its identity.
-/

namespace LiveTemplate

set_option autoImplicit false

/-- The identity of an engine. -/
abbrev EngineId := Nat

/-- The identity of a sequence of fragments.  Two equal sequences are still two. -/
abbrev SequenceId := Nat

/-- Where a sequence of fragments is stored.  Sequences that are live at the same time are stored
apart, but what is live no more leaves its address to others. -/
abbrev Address := Nat

/-- The address of a sequence of fragments, and the dialect it is to be compiled in if that is
given. -/
abbrev TemplateKey := Address × Option Dialect

/-- A template that is kept.  The sequence it was compiled from is kept with it, so that it stays
live and nothing else gets its address. -/
structure Kept where
  sequence : SequenceId
  template : TemplateId
  deriving DecidableEq, Repr

/-- An engine compiles templates and keeps them. -/
structure Engine where
  settings : Settings := {}
  cache : Cache TemplateKey Kept := {}
  deriving Inhabited

/-- The template kept under a key, if it was compiled from the given sequence. -/
def Engine.find? (engine : Engine) (key : TemplateKey) (sequence : SequenceId) :
    Option TemplateId :=
  (engine.cache.find? key).bind fun kept =>
    if kept.sequence = sequence then some kept.template else none

/-- A live realization of a template. -/
structure Instance where
  template : TemplateId
  block : Block
  parts : PartList
  /-- Whether arguments fill the parts. -/
  fills : Bool := false
  /-- The arguments given last. -/
  arguments : Value := .null
  deriving Inhabited

/-- What the parts of an instance control. -/
def Instance.sites (x : Instance) : List Site := x.parts.sites

/-- Everything that is live. -/
structure Session where
  forest : Forest := {}
  engines : Array Engine := #[]
  templates : Array Template := #[]
  /-- The fragments that the static trees of the templates stand under. -/
  statics : Array NodeId := #[]
  instances : Array Instance := #[]
  /-- What every reference holds. -/
  refs : Array Value := #[]
  /-- The blocks placed by the last contents of every range. -/
  placed : List (NodeRange × List Block) := []
  /-- The elements that callbacks received, in order. -/
  calls : List (String × NodeId) := []
  /-- The notices given so far, in order. -/
  notices : List Notice := []
  /-- The number of sequences made so far. -/
  sequences : Nat := 0
  /-- Where every sequence is stored. -/
  addressOf : SequenceId → Address := fun sequence => sequence
  deriving Inhabited

/-- A computation that changes a session and may fail half-way; what it did before it failed stays
done. -/
abbrev Live := EStateM Fault Session

namespace Session

/-- The template of a number in use. -/
def templateAt (s : Session) (t : TemplateId) : Template := s.templates.getD t default

/-- The static trees of a template as they stand now. -/
def staticTrees (s : Session) (t : TemplateId) : List Tree :=
  s.forest.treesBelow (s.statics.getD t 0)

/-- The instance of a number in use. -/
def instanceAt (s : Session) (i : InstanceId) : Instance := s.instances.getD i default

/-- The blocks that the last contents of a range held. -/
def placedIn (s : Session) (r : NodeRange) : List Block := (s.placed.lookup r).getD []

/-- Remembers the blocks that a range holds. -/
def remember (s : Session) (r : NodeRange) (blocks : List Block) : Session :=
  { s with placed := (r, blocks) :: s.placed.filter (·.1 != r) }

/-- The characters of a value that is text, also of a leaf of the forest. -/
def text? (s : Session) : Value → Option String
  | .text t => some t
  | .node n => (s.forest.leaf? n).map (·.content)
  | _ => none

/-- The values that a value holds as a sequence. -/
def entries (s : Session) : Value → Except Fault (List Value)
  | .list items | .tuple items => .ok items
  | .dict members => .ok (members.map fun m => .text m.1)
  | .parts i => .ok ((s.instanceAt i).parts.map .part)
  | .node n => .ok ((s.forest.children n).map .node)
  | v => .error (.hasNoLength v.kind)

/-- Gives a notice. -/
def notify (s : Session) (notice : Notice) : Session :=
  { s with notices := s.notices ++ [notice] }

end Session

namespace Live

/-- Reads something off a session, which may fail. -/
def look {α : Type} (view : Session → Except Fault α) : Live α := do
  match view (← get) with
  | .ok a => return a
  | .error fault => throw fault

/-- Runs an edit on the forest of a session. -/
def edit {α : Type} (act : Edit α) : Live α := fun s =>
  match act s.forest with
  | .ok a forest => .ok a { s with forest }
  | .error fault forest => .error fault { s with forest }

end Live

end LiveTemplate
