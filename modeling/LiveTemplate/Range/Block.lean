import LiveTemplate.Range.Basic
import LiveTemplate.Slice

/-!
# Blocks

The root nodes of an instance move together: they form a block of siblings, in the fragment the
instance was made in or wherever it has been placed since.  Only the first and the last root node
are remembered, and neither ever changes; the nodes between them are found by walking.
-/

namespace LiveTemplate

set_option autoImplicit false

/-- The identity of an instance. -/
abbrev InstanceId := Nat

/-- The root nodes of an instance, and the fragment they belong to while they are not placed. -/
structure Block where
  owner : InstanceId
  home : NodeId
  /-- The first and the last root node; none for an instance without nodes. -/
  ends : Option (NodeId × NodeId) := none
  deriving DecidableEq, Repr, Inhabited

namespace Block

/-- Walks from the first root to the last one, both included. -/
def walk (b : Block) (f : Forest) : Walk :=
  match b.ends with
  | none => { arrived := true }
  | some (first, last) =>
    let w := Walk.upTo last (first :: f.after first)
    if w.arrived then { w with met := w.met ++ [last] } else w

/-- The root nodes. -/
def roots (b : Block) (f : Forest) : Except Fault (List NodeId) :=
  (b.walk f).entries .rootsApart

/-- The number of root nodes. -/
def size (b : Block) (f : Forest) : Except Fault Nat := do return (← b.roots f).length

/-- The root node at an index; negative ones count from the end. -/
def nth (b : Block) (f : Forest) (index : Int) : Except Fault NodeId := do
  match LiveTemplate.nth? (← b.roots f) index with
  | some n => return n
  | none => throw .noListEntry

/-- The root node at an index; none outside the block. -/
def root? (b : Block) (f : Forest) (index : Int) : Except Fault (Option NodeId) :=
  (b.walk f).nth? .rootsApart index

/-- The block of the trees below a fragment. -/
def ofFragment (owner : InstanceId) (home : NodeId) (f : Forest) : Block where
  owner := owner
  home := home
  ends :=
    match f.children home with
    | [] => none
    | first :: rest => some (first, rest.getLastD first)

end Block

end LiveTemplate
