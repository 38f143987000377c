import LiveTemplate.Fault
import LiveTemplate.Forest.Basic

/-!
# Editing a forest

An edit runs on a forest and may fail; what it did before it failed stays done.  Three edits are
counted as mutations: inserting, replacing and removing a node.  They are counted on entry, so
that a failed one counts too.  Making the text of a placed string is counted apart.

A fragment is never inserted as such: its children are, in order.
-/

namespace LiveTemplate

set_option autoImplicit false

/-- A computation that edits a forest and may fail half-way. -/
abbrev Edit := EStateM Fault Forest

namespace Edit

/-- Fails with a fault if a computation that only looks at the forest does. -/
def look {α : Type} (view : Forest → Except Fault α) : Edit α := do
  match view (← get) with
  | .ok a => return a
  | .error fault => throw fault

/-- Takes a node out of its tree. -/
def detach (n : NodeId) : Edit Unit := modify (·.detach n)

/-- The position of a child. -/
def position (parent child : NodeId) : Edit Nat :=
  look fun f =>
    match (f.children parent).findIdx? (· == child) with
    | some i => .ok i
    | none => .error .notAChild

/-- Puts a node other than a fragment among the children of a parent.  A node that is one of them
already moves, and the positions behind its old place shift. -/
def insertNode (parent : NodeId) (place : Nat) (n : NodeId) : Edit Unit := do
  let f ← get
  let place := min place (f.children parent).length
  if n = parent then throw .insertsIntoItself
  else if f.parent? n = some parent then
    let old ← position parent n
    if old = place then pure ()
    else
      detach n
      modify (·.attach parent (if old < place then place - 1 else place) n)
  else
    detach n
    modify (·.attach parent place n)

/-- Puts nodes at consecutive positions. -/
def insertNodes (parent : NodeId) (place : Nat) : List NodeId → Edit Unit
  | [] => return
  | n :: rest => do
    insertNode parent place n
    insertNodes parent (place + 1) rest

/-- Puts a node among the children of a parent; instead of a fragment, its children. -/
def insert (parent : NodeId) (place : Nat) (n : NodeId) : Edit Unit := do
  let f ← get
  if n = parent then throw .insertsIntoItself
  else if f.isFragment n then insertNodes parent place (f.children n)
  else insertNode parent place n

/-- Counts one mutation. -/
def countMutation : Edit Unit :=
  modify fun f => { f with tally := { f.tally with mutations := f.tally.mutations + 1 } }

/-- Inserts or moves a node before a child of a parent, or behind all of them.  The node is taken
out of its tree first. -/
def insertBefore (parent n : NodeId) (reference : Option NodeId) : Edit Unit := do
  countMutation
  detach n
  match reference with
  | none => insert parent ((← get).children parent).length n
  | some child => insert parent (← position parent child) n

/-- Puts a node in the place of a child of a parent. -/
def replaceChild (parent new old : NodeId) : Edit Unit := do
  countMutation
  detach new
  let place ← position parent old
  detach old
  insert parent place new

/-- Takes a child out of its parent. -/
def removeChild (parent n : NodeId) : Edit Unit := do
  countMutation
  if (← get).parent? n = some parent then detach n else throw .removesForeign

/-- Makes a node that stands alone. -/
def grow (kind : NodeKind) : Edit NodeId := do
  let n := (← get).nextId
  modify (·.grow kind)
  return n

/-- Makes the text of a placed string. -/
def growText (s : String) : Edit NodeId := do
  modify fun f => { f with tally := { f.tally with texts := f.tally.texts + 1 } }
  grow (.leaf (.text s))

end Edit

end LiveTemplate
