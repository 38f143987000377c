import LiveTemplate.Forest.Plant
import LiveTemplate.Part
import LiveTemplate.Template

/-!
# Binding markers

An instance begins as a copy of the static trees of its template, planted under a fragment of its
own.  Then the markers are bound, element by element in document order: every name in an attribute
marker stands for a part, and an element that marks a range gives way to the two ends of an empty
one.  So the parts stand in the order of the placeholders.  A name that is repeated in the marker of
one element has one part, which stands in the list once for every time.
-/

namespace LiveTemplate

set_option autoImplicit false

namespace Forest

/-- The element nodes from a number on that carry a marker, in order. -/
def marked (f : Forest) (m : Markers) (first : NodeId) : List NodeId :=
  (List.range' first (f.nextId - first)).filter fun n =>
    match f.element? n with
    | some e => e.attributes.has m.attributes || e.attributes.has m.nodes
    | none => false

end Forest

namespace Edit

/-- Makes a part. -/
def makePart (site : Site) : Edit Part := do
  let id := (← get).partsMade
  modify fun f => { f with partsMade := f.partsMade + 1 }
  return ⟨id, site⟩

/-- The parts that the names in a marker of an element stand for.  A name that occurred before, and
is known to stand for a part, stands for the same part again. -/
def bindNames (n : NodeId) (known : List (List Char × Part)) :
    List (List Char) → Edit (List Part)
  | [] => return []
  | name :: rest =>
    match known.lookup name with
    | some p => do return p :: (← bindNames n known rest)
    | none => do
      let p ← makePart (.ofMarkedName n name)
      return p :: (← bindNames n ((name, p) :: known) rest)

/-- Turns the attribute marker of an element into parts. -/
def bindAttributes (m : Markers) (n : NodeId) : Edit (List Part) := do
  match (← get).attribute? n m.attributes with
  | none => return []
  | some names =>
    let parts ← bindNames n [] (Markers.split names.toList)
    modify (·.setAttribute n m.attributes none)
    return parts

/-- Puts an empty range in the place of an element that marks one. -/
def bindRange (m : Markers) (n : NodeId) : Edit (List Part) := do
  let f ← get
  match f.attribute? n m.nodes, f.parent? n with
  | some _, some parent =>
    let start ← grow (.leaf .sentinel)
    let stop ← grow (.leaf .sentinel)
    replaceChild parent stop n
    insertBefore parent start (some stop)
    return [← makePart (.range ⟨start, stop⟩)]
  | _, _ => return []

/-- Binds the markers of elements, in order. -/
def bindAll (m : Markers) : List NodeId → Edit (List Part)
  | [] => return []
  | n :: rest => do
    let noted ← bindAttributes m n
    let ranged ← bindRange m n
    return noted ++ ranged ++ (← bindAll m rest)

/-- Plants trees under a new fragment and binds their markers: the fragment and the parts. -/
def realize (m : Markers) (trees : List Tree) : Edit (NodeId × List Part) := do
  let home := (← get).nextId
  modify (·.plantFragment trees)
  let places := (← get).marked m (home + 1)
  return (home, ← bindAll m places)

end Edit

end LiveTemplate
