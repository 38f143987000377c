import LiveTemplate.Tree.Basic

/-!
# Forests of live nodes

A forest holds all nodes that were ever made, each under a number of its own that never changes:
that number is the identity of the node.  Every node knows its parent and its children, in order;
nodes without a parent are the roots of the trees of the forest.  A node that is taken out of its
tree stays in the forest and keeps what is below it.
-/

namespace LiveTemplate

set_option autoImplicit false

/-- The identity of a node. -/
abbrev NodeId := Nat

/-- What a node is, apart from its place in a tree. -/
inductive NodeKind
  /-- The root of loose trees.  It is never written itself. -/
  | fragment
  | element (e : Element)
  | leaf (l : Leaf)
  deriving DecidableEq, Repr

/-- A node and its links to the nodes next to it. -/
structure Node where
  kind : NodeKind
  parent : Option NodeId := none
  children : List NodeId := []
  deriving DecidableEq, Repr

/-- How much a forest has been edited. -/
structure Tally where
  /-- Insertions, replacements and removals, the failed ones included. -/
  mutations : Nat := 0
  /-- Texts made for strings that were placed. -/
  texts : Nat := 0
  deriving DecidableEq, Repr, Inhabited

/-- All live nodes, with a tally of the edits made to them. -/
structure Forest where
  nodes : Array Node := #[]
  tally : Tally := {}
  /-- How many parts have been made of the nodes. -/
  partsMade : Nat := 0
  deriving DecidableEq, Repr, Inhabited

namespace Forest

/-- The data of a node. -/
def node? (f : Forest) (n : NodeId) : Option Node := f.nodes[n]?

/-- The parent of a node, if it has one. -/
def parent? (f : Forest) (n : NodeId) : Option NodeId := (f.node? n).bind (·.parent)

/-- The children of a node, in order. -/
def children (f : Forest) (n : NodeId) : List NodeId := ((f.node? n).map (·.children)).getD []

/-- The siblings that follow a node, nearest first. -/
def after (f : Forest) (n : NodeId) : List NodeId :=
  match f.parent? n with
  | none => []
  | some parent => ((f.children parent).dropWhile (· != n)).drop 1

/-- The next sibling of a node. -/
def next? (f : Forest) (n : NodeId) : Option NodeId := (f.after n).head?

/-- The data of an element node. -/
def element? (f : Forest) (n : NodeId) : Option Element :=
  match f.node? n with
  | some { kind := .element e, .. } => some e
  | _ => none

/-- The data of a leaf node. -/
def leaf? (f : Forest) (n : NodeId) : Option Leaf :=
  match f.node? n with
  | some { kind := .leaf l, .. } => some l
  | _ => none

/-- Whether a node is a fragment. -/
def isFragment (f : Forest) (n : NodeId) : Bool :=
  match f.node? n with
  | some { kind := .fragment, .. } => true
  | _ => false

/-- The characters of a text node. -/
def text? (f : Forest) (n : NodeId) : Option String :=
  match f.leaf? n with
  | some (.text s) => some s
  | _ => none

/-- The name a node goes by as a parent: the root of loose trees has one of its own. -/
def nameOf (f : Forest) (n : NodeId) : String :=
  match f.element? n with
  | some e => e.name
  | none => "[document]"

/-- Changes the data of a node. -/
def modify (f : Forest) (n : NodeId) (change : Node → Node) : Forest :=
  { f with nodes := f.nodes.modify n change }

/-- The number the next new node will get. -/
def nextId (f : Forest) : NodeId := f.nodes.size

/-- Adds a node that stands alone. -/
def grow (f : Forest) (kind : NodeKind) : Forest := { f with nodes := f.nodes.push { kind } }

/-- Takes a node out of the children of its parent. -/
def detach (f : Forest) (n : NodeId) : Forest :=
  match f.parent? n with
  | none => f
  | some parent =>
    (f.modify parent fun x => { x with children := x.children.erase n }).modify n
      fun x => { x with parent := none }

/-- Makes a node that stands alone the child of another one, at the given position. -/
def attach (f : Forest) (parent : NodeId) (position : Nat) (n : NodeId) : Forest :=
  (f.modify parent fun x => { x with children := x.children.insertIdx position n }).modify n
    fun x => { x with parent := some parent }

/-- Makes a node that stands alone the last child of another one. -/
def attachLast (f : Forest) (parent n : NodeId) : Forest :=
  f.attach parent (f.children parent).length n

/-- Sets or removes an attribute of an element. -/
def setAttribute (f : Forest) (n : NodeId) (name : String) (value : Option String) : Forest :=
  f.modify n fun x =>
    match x.kind, value with
    | .element e, some value =>
      { x with kind := .element { e with attributes := e.attributes.set name value } }
    | .element e, none =>
      { x with kind := .element { e with attributes := e.attributes.erase name } }
    | _, _ => x

/-- The value of an attribute of an element. -/
def attribute? (f : Forest) (n : NodeId) (name : String) : Option String :=
  (f.element? n).bind (·.attributes.get? name)

end Forest

end LiveTemplate
