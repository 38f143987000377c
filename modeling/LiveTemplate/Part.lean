import LiveTemplate.Range.Block

/-!
# Parts

A part is a hole of an instance.  It controls its site: one attribute of an element, an element as a
whole, or a range of nodes.  Like everything else that is made, a part has the number it got when it
was made, and that number is its identity; several holes may have one part in common.
-/

namespace LiveTemplate

set_option autoImplicit false

/-- The identity of a part. -/
abbrev PartId := Nat

/-- What a part controls. -/
inductive Site
  | attribute (element : NodeId) (name : String)
  | element (element : NodeId)
  | range (nodes : NodeRange)
  deriving DecidableEq, Repr

/-- The site that a name in a marker attribute stands for: the empty name is the element. -/
def Site.ofMarkedName (n : NodeId) (name : List Char) : Site :=
  if name.isEmpty then .element n else .attribute n (String.ofList name)

/-- A part of an instance. -/
structure Part where
  id : PartId
  site : Site
  deriving DecidableEq, Repr

namespace Part

/-- The number of a kind of part. -/
def kindIndex (p : Part) : Nat :=
  match p.site with
  | .attribute .. => 0
  | .element _ => 1
  | .range _ => 2

/-- What a kind of part is called in messages. -/
def kindName (p : Part) : String :=
  match p.site with
  | .attribute .. => "AttributePart"
  | .element _ => "ElementPart"
  | .range _ => "NodeRangePart"

/-- The range of a part that has one. -/
def nodes (p : Part) : Except Fault NodeRange :=
  match p.site with
  | .range r => .ok r
  | _ => .error (.lacks p.kindName "nodes")

/-- The element of a part that has one. -/
def element? (p : Part) : Except Fault NodeId :=
  match p.site with
  | .attribute e _ | .element e => .ok e
  | _ => .error (.lacks p.kindName "element")

end Part

/-- The parts of an instance, in the order of the placeholders. -/
abbrev PartList := List Part

namespace PartList

/-- What the parts control. -/
def sites (ps : PartList) : List Site := ps.map (·.site)

/-- The part at an index; negative ones count from the end. -/
def nth (ps : PartList) (index : Int) : Except Fault Part :=
  match nth? ps index with
  | some p => .ok p
  | none => .error .noTupleEntry

/-- The part at an index; none outside the list. -/
def item? (ps : PartList) (index : Int) : Option Part :=
  if index < 0 then none else nth? ps index

/-- The indices of the parts. -/
def keys (ps : PartList) : List Nat := List.range ps.length

/-- The parts with their indices. -/
def entries (ps : PartList) : List (Nat × Part) := ps.keys.zip ps

end PartList

end LiveTemplate
