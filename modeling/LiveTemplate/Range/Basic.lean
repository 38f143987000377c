import LiveTemplate.Forest.Edit

/-!
# Node ranges

A node range is the run of siblings between two nodes that mark its ends.  Nothing about it is
remembered but the two ends: what it holds is found by walking from one to the other whenever it
is asked for, so it is always what the tree holds at that moment.

A walk that does not meet its end fails.  Looking for one entry walks no further than that entry,
so an entry that stands before the place where the walk would fail is still found.
-/

namespace LiveTemplate

set_option autoImplicit false

/-! ## Walking siblings -/

/-- A walk along siblings: the nodes met, and whether the walk came to its end. -/
structure Walk where
  met : List NodeId := []
  arrived : Bool := false
  deriving DecidableEq, Repr

namespace Walk

/-- Walks until a node is met, leaving that node out. -/
def upTo (stop : NodeId) : List NodeId → Walk
  | [] => {}
  | n :: rest =>
    if n = stop then { arrived := true }
    else
      let w := Walk.upTo stop rest
      { w with met := n :: w.met }

/-- All entries of a walk. -/
def entries (w : Walk) (fault : Fault) : Except Fault (List NodeId) :=
  if w.arrived then .ok w.met else .error fault

/-- The entry at an index, if there is one.  The walk may fail behind it. -/
def nth? (w : Walk) (fault : Fault) (index : Int) : Except Fault (Option NodeId) :=
  if index < 0 then .ok none
  else
    match w.met[index.toNat]? with
    | some n => .ok (some n)
    | none => if w.arrived then .ok none else .error fault

/-- A walk meets what stands in front of its end. -/
theorem upTo_append {stop : NodeId} {ns : List NodeId} (rest : List NodeId) (h : stop ∉ ns) :
    upTo stop (ns ++ stop :: rest) = { met := ns, arrived := true } := by
  induction ns with
  | nil => simp [upTo]
  | cons n ns ih =>
    have hn : ¬ n = stop := fun e => h (by simp [e])
    have hns : stop ∉ ns := fun e => h (by simp [e])
    simp [upTo, hn, ih hns]

/-- A walk that does not arrive has met all siblings. -/
theorem upTo_of_not_mem {stop : NodeId} {ns : List NodeId} (h : stop ∉ ns) :
    upTo stop ns = { met := ns } := by
  induction ns with
  | nil => rfl
  | cons n ns ih =>
    have hn : ¬ n = stop := fun e => h (by simp [e])
    have hns : stop ∉ ns := fun e => h (by simp [e])
    simp [upTo, hn, ih hns]

/-- A walk that arrives has met what stands in front of its end. -/
theorem eq_append_of_arrived {stop : NodeId} {ns : List NodeId}
    (h : (upTo stop ns).arrived = true) :
    ∃ rest, ns = (upTo stop ns).met ++ stop :: rest ∧ stop ∉ (upTo stop ns).met := by
  induction ns with
  | nil => simp [upTo] at h
  | cons n ns ih =>
    by_cases hn : n = stop
    · exact ⟨ns, by simp [upTo, hn]⟩
    · have harrived : (upTo stop ns).arrived = true := by simpa [upTo, hn] using h
      obtain ⟨rest, hns, hfree⟩ := ih harrived
      refine ⟨rest, ?_, ?_⟩
      · simpa [upTo, hn] using hns
      · have hne : ¬ stop = n := fun e => hn e.symm
        simpa [upTo, hn, hne] using hfree

end Walk

/-- The two nodes that mark the ends of a range of siblings. -/
structure NodeRange where
  start : NodeId
  stop : NodeId
  deriving DecidableEq, Repr

namespace NodeRange

/-! ## Looking at a range -/

/-- The walk from the start to the end. -/
def walk (r : NodeRange) (f : Forest) : Walk := Walk.upTo r.stop (f.after r.start)

/-- The nodes in the range. -/
def items (r : NodeRange) (f : Forest) : Except Fault (List NodeId) :=
  (r.walk f).entries .endNotReached

/-- The number of nodes in the range. -/
def size (r : NodeRange) (f : Forest) : Except Fault Nat := do return (← r.items f).length

/-- The nodes in the range, each behind its index. -/
def entries (r : NodeRange) (f : Forest) : Except Fault (List (Nat × NodeId)) := do
  return (← r.items f).mapIdx fun index n => (index, n)

/-- The node at an index; none outside the range. -/
def item? (r : NodeRange) (f : Forest) (index : Int) : Except Fault (Option NodeId) :=
  (r.walk f).nth? .endNotReached index

/-- The node at an index; negative ones count from the end. -/
def nth (r : NodeRange) (f : Forest) (index : Int) : Except Fault NodeId := do
  let size ← if index < 0 then r.size f else pure 0
  match ← r.item? f (index + size) with
  | some n => return n
  | none => throw .noEntry

/-- The node whose children the range is among. -/
def parent (r : NodeRange) (f : Forest) : Except Fault NodeId :=
  match f.parent? r.start, f.parent? r.stop with
  | some p, some q => if p = q then .ok p else .error .endsApart
  | _, _ => .error .endsApart

/-! ## Editing a range -/

/-- Inserts or moves a node before another one, or to the end of the range. -/
def insertBefore (r : NodeRange) (n : NodeId) (reference : Option NodeId) : Edit Unit := do
  Edit.insertBefore (← Edit.look r.parent) n (some (reference.getD r.stop))

/-- Inserts or moves a node to the end of the range. -/
def append (r : NodeRange) (n : NodeId) : Edit Unit := r.insertBefore n none

/-- Takes a node out. -/
def remove (r : NodeRange) (n : NodeId) : Edit Unit := do
  Edit.removeChild (← Edit.look r.parent) n

/-- Puts a node in the place of another one. -/
def replace (r : NodeRange) (new old : NodeId) : Edit Unit := do
  Edit.replaceChild (← Edit.look r.parent) new old

/-- Puts a node at an index: in the place of the node there, or behind the last one. -/
def setNth (r : NodeRange) (index : Int) (n : NodeId) : Edit Unit := do
  match ← Edit.look (r.item? · index) with
  | some old => r.replace n old
  | none =>
    if index = (← Edit.look r.size) then r.append n else throw .noEntryToAssign

/-- Takes out the node at an index. -/
def eraseNth (r : NodeRange) (index : Int) : Edit Unit := do
  r.remove (← Edit.look (r.nth · index))

end NodeRange

end LiveTemplate
