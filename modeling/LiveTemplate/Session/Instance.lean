import LiveTemplate.Binding
import LiveTemplate.Session.Fill

/-!
# Instances

An instance is made of a template and may be filled with arguments at once.  One that is filled
when it is made can be filled again with others at any time.
-/

namespace LiveTemplate

set_option autoImplicit false

namespace Session

/-- Adds an instance. -/
def addInstance (s : Session) (x : Instance) : Session :=
  { s with instances := s.instances.push x }

/-- Stores the arguments of an instance. -/
def setArguments (s : Session) (i : InstanceId) (arguments : Value) : Session :=
  { s with instances := s.instances.modify i fun x => { x with arguments } }

end Session

namespace Live

/-- Makes an instance of a template and fills it, if there are arguments to fill it with.  The
static trees are copied as they stand now. -/
def instantiate (t : TemplateId) (arguments : Option Value) : Live InstanceId := do
  let s ← get
  let (home, parts) ← edit (Edit.realize (s.templateAt t).markers (s.staticTrees t))
  modify (·.notify (.realized parts.length))
  let i := (← get).instances.size
  let block := Block.ofFragment i home (← get).forest
  let fills := arguments.isSome
  modify (·.addInstance { template := t, block, parts, fills, arguments := arguments.getD .null })
  if let some values := arguments then fillFrom values 0 parts
  return i

/-- Fills an instance again. -/
def update (i : InstanceId) (arguments : Value) : Live Unit := do
  let inst := (← get).instanceAt i
  if inst.fills then
    modify (·.setArguments i arguments)
    fillFrom arguments 0 inst.parts
  else throw .nothingFills

end Live

end LiveTemplate
