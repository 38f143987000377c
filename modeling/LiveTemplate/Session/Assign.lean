import LiveTemplate.Session.Fill

/-!
# Assigning values

Direct edits of attributes and ranges with values of any kind.  A value of the wrong kind is
refused, but not before the edit has begun: the range is looked up and the mutation counted first.
-/

namespace LiveTemplate

set_option autoImplicit false

namespace Live

/-- Sets an attribute to text, or removes it for nothing. -/
def assignAttribute (e : NodeId) (name : String) (v : Value) : Live Unit := do
  match v, (← get).text? v with
  | .null, _ => setAttribute e name none
  | _, some t => setAttribute e name (some t)
  | v, none => throw (.attributeNeedsText (← look (·.shown v)))

/-- Puts a value at an index of a range: a node as it is, and a new text for a string. -/
def assignEntry (r : NodeRange) (index : Int) (v : Value) : Live Unit := do
  match v with
  | .node n => edit (r.setNth index n)
  | .text t => edit do r.setNth index (← Edit.growText t)
  | v => throw (.cannotAssign (← look (·.shown v)))

/-- Refuses a value where an edit of a range needs a node. -/
def refuseOperand (r : NodeRange) (v : Value) : Live Unit := do
  edit do
    let _ ← Edit.look r.parent
    Edit.countMutation
  throw (.needsNode v.kind)

/-- Refuses a value where an edit of a range needs a child to go by.  The node that was to move
has already been taken out. -/
def refuseReference (r : NodeRange) (n : NodeId) : Live Unit :=
  edit do
    let _ ← Edit.look r.parent
    Edit.countMutation
    Edit.detach n
    throw .notAChild

/-- Inserts or moves a node in a range, before a reference or to the end. -/
def insertInRange (r : NodeRange) (v reference : Value) : Live Unit :=
  match v, reference with
  | .node n, .null => edit (r.append n)
  | .node n, .node m => edit (r.insertBefore n (some m))
  | .node n, _ => refuseReference r n
  | v, _ => refuseOperand r v

/-- Takes a node out of a range. -/
def removeInRange (r : NodeRange) (v : Value) : Live Unit :=
  match v with
  | .node n => edit (r.remove n)
  | v => refuseOperand r v

/-- Puts a node in the place of another one of a range. -/
def replaceInRange (r : NodeRange) (new old : Value) : Live Unit :=
  match new, old with
  | .node n, .node m => edit (r.replace n m)
  | .node n, _ => refuseReference r n
  | v, _ => refuseOperand r v

/-- Makes a reference that holds a value. -/
def newRef (v : Value) : Live RefId :=
  modifyGet fun s => (s.refs.size, { s with refs := s.refs.push v })

/-- Takes the record of the elements that callbacks received. -/
def takeCalls : Live (List (String × NodeId)) :=
  modifyGet fun s => (s.calls, { s with calls := [] })

end Live

end LiveTemplate
