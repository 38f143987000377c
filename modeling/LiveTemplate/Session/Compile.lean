import LiveTemplate.Session.Basic

/-!
# Compiling in a session

An engine compiles the fragments of a template once for every sequence and every forced dialect,
as long as it has room to keep the result: a sequence is known by its address, so an equal but
distinct one is compiled anew.  A failed compilation leaves the cache as it was.
-/

namespace LiveTemplate

set_option autoImplicit false

namespace Session

/-- The texts of fragments, numbered from `index` on. -/
def fragmentTexts (s : Session) (index : Nat) : List Value → Except Fault (List String)
  | [] => .ok []
  | v :: rest =>
    match s.text? v with
    | some t => do return t :: (← s.fragmentTexts (index + 1) rest)
    | none => .error (.fragmentNotText index v.kind)

/-- The fragments that a value lists: at least one, and all of them text. -/
def fragmentsOf (s : Session) (v : Value) : Except Fault (List String) := do
  if (s.text? v).isSome then throw .singleText
  match ← s.entries v with
  | [] => throw .noFragments
  | entries => s.fragmentTexts 0 entries

/-- The engine of a number in use. -/
def engineAt (s : Session) (e : EngineId) : Engine := s.engines.getD e default

/-- Changes the cache of an engine. -/
def modifyCache (s : Session) (e : EngineId)
    (change : Cache TemplateKey Kept → Cache TemplateKey Kept) : Session :=
  { s with
    engines := s.engines.modify e fun engine => { engine with cache := change engine.cache } }

/-- Adds a template.  Its static trees are planted under a fragment of their own. -/
def addTemplate (s : Session) (t : Template) : Session :=
  { s with
    templates := s.templates.push t
    statics := s.statics.push s.forest.nextId
    forest := s.forest.plantFragment t.trees }

/-- Adds an engine. -/
def addEngine (s : Session) (settings : Settings) : Except Fault Session := do
  settings.check
  return { s with engines := s.engines.push { settings } }

end Session

namespace Live

/-- Names a new sequence. -/
def newSequence : Live SequenceId :=
  modifyGet fun s => (s.sequences, { s with sequences := s.sequences + 1 })

/-- Compiles fragments without looking at the cache, whatever reads their markup. -/
def compileFreshWith (parse : MarkupReader) (e : EngineId) (fragments : Value)
    (forced : Option Dialect) : Live TemplateId := do
  let texts ← look (·.fragmentsOf fragments)
  let (result, notices) := Template.compileWith parse ((← get).engineAt e).settings texts forced
  modify fun s => notices.foldl Session.notify s
  match result with
  | .error fault => throw fault
  | .ok t => modifyGet fun s => (s.templates.size, s.addTemplate t)

/-- Compiles a sequence of fragments, whatever reads their markup, or finds what it was compiled to
before. -/
def compileWith (parse : MarkupReader) (e : EngineId) (sequence : SequenceId) (fragments : Value)
    (forced : Option Dialect) : Live TemplateId := do
  let engine := (← get).engineAt e
  let key := ((← get).addressOf sequence, forced)
  if engine.settings.caching then
    match engine.find? key sequence with
    | some t =>
      let count := (((← get).entries fragments).toOption.getD []).length
      modify (·.notify (.cacheHit count))
      modify (·.modifyCache e (·.use key ⟨sequence, t⟩))
      return t
    | none =>
      let t ← compileFreshWith parse e fragments forced
      modify (·.modifyCache e (·.store engine.settings.cacheRoom.toNat key ⟨sequence, t⟩))
      return t
  else compileFreshWith parse e fragments forced

/-- Compiles a sequence of fragments, or finds what it was compiled to before. -/
def compile (e : EngineId) (sequence : SequenceId) (fragments : Value) (forced : Option Dialect) :
    Live TemplateId :=
  compileWith parseMarkup e sequence fragments forced

/-- Forgets the templates that an engine keeps. -/
def clearCache (e : EngineId) : Live Unit := modify (·.modifyCache e fun _ => {})

end Live

end LiveTemplate
