import LiveTemplate.Forest.Basic
import LiveTemplate.Tree.Serialize

/-!
# Planting trees and reading them back

A tree becomes live by being planted in a forest: every node of it gets an identity.  A live node
can be read back as trees at any time, and trees can be written as markup.
-/

namespace LiveTemplate

set_option autoImplicit false

namespace Forest

mutual
/-- Plants a tree as the last child of a node.  New nodes are numbered in document order. -/
def plant (f : Forest) (parent : NodeId) : Tree → Forest
  | .leaf l =>
    let n := f.nextId
    (f.grow (.leaf l)).attachLast parent n
  | .element e children =>
    let n := f.nextId
    ((f.grow (.element e)).attachLast parent n).plantAll n children

/-- Plants trees as the last children of a node. -/
def plantAll (f : Forest) (parent : NodeId) : List Tree → Forest
  | [] => f
  | t :: rest => (f.plant parent t).plantAll parent rest
end

/-- Plants trees under a new fragment, whose number is the next free one. -/
def plantFragment (f : Forest) (trees : List Tree) : Forest :=
  (f.grow .fragment).plantAll f.nextId trees

/-- The dialect of a node, looked up through at most `depth` parents: that of the nearest node
around it that has one, and HTML if none has. -/
def dialectWithin (f : Forest) : Nat → NodeId → Dialect
  | 0, _ => .html
  | depth + 1, n =>
    match (f.element? n).bind (·.dialect), f.parent? n with
    | some d, _ => d
    | none, some parent => f.dialectWithin depth parent
    | none, none => .html

/-- The dialect whose rules write a node when it is the outermost one. -/
def dialectOf (f : Forest) (n : NodeId) : Dialect := f.dialectWithin f.nodes.size n

/-- The trees at a node, read down to the given depth: one for an element or a leaf, the children
for a fragment. -/
def treesWithin (f : Forest) : Nat → NodeId → List Tree
  | 0, _ => []
  | depth + 1, n =>
    match f.node? n with
    | none => []
    | some x =>
      match x.kind with
      | .leaf l => [.leaf l]
      | .element e => [.element e (x.children.flatMap (f.treesWithin depth))]
      | .fragment => x.children.flatMap (f.treesWithin depth)

/-- The trees at a node. -/
def trees (f : Forest) (n : NodeId) : List Tree := f.treesWithin f.nodes.size n

/-- The trees below a node. -/
def treesBelow (f : Forest) (n : NodeId) : List Tree := (f.children n).flatMap f.trees

/-- The name of the element that a node stands in. -/
def parentName? (f : Forest) (n : NodeId) : Option String := (f.parent? n).map f.nameOf

/-- The markup of a node when it is the outermost one written. -/
def markup (f : Forest) (n : NodeId) : String :=
  String.ofList (Serialize.treesText (f.dialectOf n) (f.parentName? n) (f.trees n))

/-- The markup of nodes one after another. -/
def markupAll (f : Forest) (ns : List NodeId) : String := String.join (ns.map f.markup)

mutual
/-- A tree in which every element keeps the dialect it goes by, also one that takes it from around
it. -/
def settle (d : Dialect) : Tree → Tree
  | .leaf l => .leaf l
  | .element e children =>
    let own := e.dialect.getD d
    .element { e with dialect := some own } (settleAll own children)

/-- Trees in which every element keeps the dialect it goes by. -/
def settleAll (d : Dialect) : List Tree → List Tree
  | [] => []
  | t :: rest => settle d t :: settleAll d rest
end

/-- Plants a copy of what is below a node under a new fragment. -/
def copyBelow (f : Forest) (n : NodeId) : Forest :=
  f.plantFragment (settleAll (f.dialectOf n) (f.treesBelow n))

end Forest

end LiveTemplate
