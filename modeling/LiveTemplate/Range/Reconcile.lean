import LiveTemplate.Range.Block
import LiveTemplate.Forest.Plant
import LiveTemplate.Text.Quoted

/-!
# Reconciling a range with new content

`NodeRange.reconcile` makes a range hold exactly the given contents, in order, and edits as little
as one greedy pass over them allows:

* strings take over texts of the range that have the same characters and are not needed
  otherwise; new texts are made for the rest;
* nodes that are not wanted any more are removed, except that a block which was placed earlier,
  is still there as a whole and is not wanted goes back to its own fragment;
* the nodes that stay are brought into their new order, starting from the first of them;
* the new nodes are inserted between them.

Bringing nodes into order and inserting new ones are the same walk, `NodeRange.arrange`: a cursor
follows the siblings, and a node that the cursor does not meet is put in front of it.

Everything that can be refused is refused before the first edit.
-/

namespace LiveTemplate

set_option autoImplicit false

/-- What a caller may hand to a range. -/
inductive Content
  | text (s : String)
  | node (n : NodeId)
  /-- An instance, which stands for its root nodes. -/
  | block (b : Block)
  /-- A value that cannot be placed, and why. -/
  | refused (fault : Fault)
  deriving DecidableEq, Repr

/-- A single thing to be placed: a string, for which a text node is still to be found, or a
node. -/
inductive Item
  | text (s : String)
  | node (n : NodeId)
  deriving DecidableEq, Repr

/-- The node of an item that has one. -/
def Item.node? : Item → Option NodeId
  | .text _ => none
  | .node n => some n

namespace Content

/-- The block that a content is. -/
def block? : Content → Option Block
  | .block b => some b
  | _ => none

/-- The items that one content stands for. -/
def items (f : Forest) : Content → Except Fault (List Item)
  | .text s => .ok [.text s]
  | .node n => .ok [.node n]
  | .block b => (b.roots f).map (·.map .node)
  | .refused fault => .error fault

/-- The items that contents stand for, in order. -/
def allItems (f : Forest) : List Content → Except Fault (List Item)
  | [] => .ok []
  | c :: rest => do return (← c.items f) ++ (← allItems f rest)

end Content

/-- How a node is shown in messages: text between quotes, elements as markup. -/
def Forest.shown (f : Forest) (n : NodeId) : String :=
  match f.leaf? n with
  | some l => Text.quoted l.content
  | none => f.markup n

namespace NodeRange

/-- Refuses the ends of the range itself and nodes that are given twice. -/
def checkNodes (r : NodeRange) (f : Forest) (seen : List NodeId) : List NodeId → Except Fault Unit
  | [] => .ok ()
  | n :: rest =>
    if n = r.start || n = r.stop then .error .containsOwnEnd
    else if seen.contains n then .error (.repeatsNode (f.shown n))
    else r.checkNodes f (n :: seen) rest

/-- The items that contents stand for, if a range may hold them. -/
def wanted (r : NodeRange) (contents : List Content) (f : Forest) : Except Fault (List Item) := do
  let items ← Content.allItems f contents
  r.checkNodes f [] (items.filterMap Item.node?)
  return items

/-- Whether a block that is not kept goes home: it stands in the range as a whole, and none of its
nodes is wanted there. -/
def goesHome (kept : List InstanceId) (current wanted : List NodeId) (b : Block)
    (roots : List NodeId) : Bool :=
  !kept.contains b.owner && roots.all current.contains && !roots.any wanted.contains

/-- The blocks that go home, with their nodes.  A block that has been broken up stays where its
nodes are. -/
def released (f : Forest) (placed : List Block) (kept : List InstanceId)
    (current wanted : List NodeId) : List (Block × List NodeId) :=
  placed.filterMap fun b =>
    match b.roots f with
    | .ok roots => if goesHome kept current wanted b roots then some (b, roots) else none
    | .error _ => none

/-- Finds a node for every item: strings take the first spare text of the same characters, and
make a new one if there is none. -/
def nodesFor (spare : List NodeId) : List Item → Edit (List NodeId)
  | [] => return []
  | .node n :: rest => return n :: (← nodesFor spare rest)
  | .text s :: rest => do
    let f ← get
    match spare.find? (fun n => f.text? n == some s) with
    | some n => return n :: (← nodesFor (spare.erase n) rest)
    | none =>
      let n ← Edit.growText s
      return n :: (← nodesFor spare rest)

/-- Brings nodes into order from a cursor on: a node under the cursor moves the cursor on, any
other one is put in front of it. -/
def arrange (r : NodeRange) (cursor : Option NodeId) : List NodeId → Edit Unit
  | [] => return
  | n :: rest => do
    if cursor = some n then r.arrange ((← get).next? n) rest
    else
      r.insertBefore n cursor
      r.arrange cursor rest

/-- Removes nodes from the range. -/
def removeAll (r : NodeRange) : List NodeId → Edit Unit
  | [] => return
  | n :: rest => do
    r.remove n
    r.removeAll rest

/-- Moves nodes to the end of a fragment. -/
def sendHome (home : NodeId) : List NodeId → Edit Unit
  | [] => return
  | n :: rest => do
    Edit.insertBefore home n none
    sendHome home rest

/-- Moves blocks back to their own fragments. -/
def sendAllHome : List (Block × List NodeId) → Edit Unit
  | [] => return
  | (b, roots) :: rest => do
    sendHome b.home roots
    sendAllHome rest

/-- Makes the range hold exactly the given contents.  `placed` are the blocks that the last
contents held; the blocks among the new contents are returned to be remembered in their place. -/
def reconcile (r : NodeRange) (placed : List Block) (contents : List Content) :
    Edit (List Block) := do
  let items ← Edit.look (r.wanted contents)
  let current ← Edit.look r.items
  let f ← get
  let blocks := contents.filterMap Content.block?
  let wanted := items.filterMap Item.node?
  let released := released f placed (blocks.map (·.owner)) current wanted
  let leaving := released.flatMap (·.2)
  let spare := current.filter fun n =>
    (f.text? n).isSome && !wanted.contains n && !leaving.contains n
  let target ← nodesFor spare items
  r.removeAll (current.filter fun n => !target.contains n && !leaving.contains n)
  sendAllHome released
  r.arrange (current.find? target.contains) (target.filter current.contains)
  r.arrange ((← get).next? r.start) target
  return blocks

end NodeRange

end LiveTemplate
