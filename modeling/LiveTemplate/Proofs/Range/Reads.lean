import LiveTemplate.Proofs.Range.Exactness
import LiveTemplate.Session.Shown

/-!
# Reading ranges and root nodes

What a range holds and which root nodes an instance has is found by walking siblings, anew for
every read.  A range that stands is read like the list of what it holds (`Stands.readsAs`).

When the end of the walk does not follow its start any more, there is no such list.  Whatever has to
walk to the end fails then: going through all entries, counting them, counting an index from the
end, and everything about root nodes that lists them first.  Looking for the entry at an index goes
no further than that entry.  It fails exactly if the siblings come to an end before, and otherwise
the answer is whatever sibling stands at that place.

Main statement: `Session.reads_of_lost_ends`.  `entries_read_beyond_lost_ends` shows entries that
are found although the end is lost.
-/

namespace LiveTemplate

set_option autoImplicit false

open Forest

/-! ## Walks -/

namespace Walk

variable {w : Walk}

/-- A walk that has come to its end knows every index. -/
theorem nth?_of_arrived (h : w.arrived = true) (fault : Fault) (index : Int) :
    w.nth? fault index = .ok (if index < 0 then none else w.met[index.toNat]?) := by
  unfold nth?
  by_cases hindex : index < 0
  · rw [if_pos hindex, if_pos hindex]
  · rw [if_neg hindex, if_neg hindex, h]
    cases w.met[index.toNat]? <;> rfl

/-- A walk that has not come to its end knows the indexes it has passed. -/
theorem nth?_of_lost (h : w.arrived = false) (fault : Fault) (index : Nat) :
    w.nth? fault index = (w.met[index]?).elim (.error fault) fun n => .ok (some n) := by
  unfold nth?
  rw [if_neg (Int.not_lt.mpr (Int.natCast_nonneg index)), Int.toNat_natCast, h]
  cases w.met[index]? <;> rfl

end Walk

/-! ## Ranges that stand -/

namespace NodeRange

variable {r : NodeRange} {f : Forest} {p : NodeId} {before inside behind : List NodeId}

/-- Every read of the range agrees with a list. -/
structure ReadsAs (r : NodeRange) (f : Forest) (inside : List NodeId) : Prop where
  items : r.items f = .ok inside
  size : r.size f = .ok inside.length
  entries : r.entries f = .ok (inside.mapIdx fun index n => (index, n))
  item? : ∀ index : Int, r.item? f index = .ok (if index < 0 then none else inside[index.toNat]?)
  /-- Negative indexes count from the end, as in `nth?`. -/
  nth : ∀ index : Int, r.nth f index = (nth? inside index).elim (.error .noEntry) .ok

/-- Looking up an index is looking for the entry there, once it has been counted from the start. -/
theorem nth_eq {index : Int} {k : Nat} (hsize : index < 0 → r.size f = .ok k) :
    r.nth f index
      = r.item? f (if index < 0 then index + k else index) >>= fun found =>
          found.elim (.error .noEntry) .ok := by
  unfold nth
  by_cases hindex : index < 0
  · rw [if_pos hindex, if_pos hindex, hsize hindex]
    show (r.item? f (index + k) >>= _) = _
    rcases r.item? f (index + k) with _ | _ | _ <;> rfl
  · rw [if_neg hindex, if_neg hindex]
    show (r.item? f (index + (0 : Nat)) >>= _) = _
    rw [Int.natCast_zero, Int.add_zero]
    rcases r.item? f index with _ | _ | _ <;> rfl

/-- A range that stands is read like the list of what it holds. -/
theorem Stands.readsAs (hf : f.Linked) (h : r.Stands f p before inside behind) :
    r.ReadsAs f inside := by
  have hitems := h.items_eq hf
  have hwalk : r.walk f = { met := inside, arrived := true } := by
    have hstop : r.stop ∉ inside := fun hs => (h.ne_ends hf hs).2.1 rfl
    unfold walk
    rw [hf.after_eq h, Walk.upTo_append behind hstop]
  have hsize : r.size f = .ok inside.length := by
    unfold NodeRange.size
    rw [hitems]
    rfl
  have hitem : ∀ index : Int,
      r.item? f index = .ok (if index < 0 then none else inside[index.toNat]?) := by
    intro index
    unfold NodeRange.item?
    rw [hwalk, Walk.nth?_of_arrived rfl]
  refine ⟨hitems, hsize, ?_, hitem, fun index => ?_⟩
  · unfold NodeRange.entries
    rw [hitems]
    rfl
  · rw [nth_eq fun _ => hsize, hitem]
    rfl

end NodeRange

/-! ## Ends that are lost -/

/-- Every read of the range fails, except looking for an entry in front of the place where the
siblings `met` come to an end. -/
structure NodeRange.ReadsLost (r : NodeRange) (f : Forest) (met : List NodeId) : Prop where
  items : r.items f = .error .endNotReached
  size : r.size f = .error .endNotReached
  entries : r.entries f = .error .endNotReached
  nth_of_neg : ∀ index : Int, index < 0 → r.nth f index = .error .endNotReached
  item? : ∀ index : Nat, r.item? f index
    = (met[index]?).elim (.error .endNotReached) fun n => .ok (some n)
  nth : ∀ index : Nat, r.nth f index = (met[index]?).elim (.error .endNotReached) .ok

/-- Every read of root nodes fails, except looking for one in front of the place where the siblings
`met` come to an end. -/
structure Block.ReadsLost (b : Block) (f : Forest) (met : List NodeId) : Prop where
  roots : b.roots f = .error .rootsApart
  size : b.size f = .error .rootsApart
  nth : ∀ index : Int, b.nth f index = .error .rootsApart
  root? : ∀ index : Nat, b.root? f index
    = (met[index]?).elim (.error .rootsApart) fun n => .ok (some n)

/-- A range whose end does not follow its start is read as far as the siblings behind the start
go. -/
theorem NodeRange.readsLost {r : NodeRange} {f : Forest} (h : r.stop ∉ f.after r.start) :
    r.ReadsLost f (f.after r.start) := by
  have hwalk : r.walk f = { met := f.after r.start } := Walk.upTo_of_not_mem h
  have hitems : r.items f = .error .endNotReached := by
    unfold NodeRange.items
    rw [hwalk]
    rfl
  have hsize : r.size f = .error .endNotReached := by
    unfold NodeRange.size
    rw [hitems]
    rfl
  have hitem : ∀ index : Nat, r.item? f index
      = ((f.after r.start)[index]?).elim (.error .endNotReached) fun n => .ok (some n) := by
    intro index
    unfold NodeRange.item?
    rw [hwalk, Walk.nth?_of_lost rfl]
  refine ⟨hitems, hsize, ?_, fun index hindex => ?_, hitem, fun index => ?_⟩
  · unfold NodeRange.entries
    rw [hitems]
    rfl
  · unfold NodeRange.nth
    rw [if_pos hindex, hsize]
    rfl
  · have hindex : ¬ (index : Int) < 0 := Int.not_lt.mpr (Int.natCast_nonneg index)
    rw [nth_eq (k := 0) fun h => absurd h hindex, if_neg hindex, hitem]
    cases (f.after r.start)[index]? <;> rfl

/-- An instance whose last root node does not follow the first one is read as far as the siblings
from the first one on go. -/
theorem Block.readsLost {b : Block} {f : Forest} {first last : NodeId}
    (hends : b.ends = some (first, last)) (h : last ∉ first :: f.after first) :
    b.ReadsLost f (first :: f.after first) := by
  have hwalk : b.walk f = { met := first :: f.after first } := by
    unfold Block.walk
    rw [hends]
    show (if (Walk.upTo last (first :: f.after first)).arrived = true then _ else
      Walk.upTo last (first :: f.after first)) = _
    rw [Walk.upTo_of_not_mem h]
    rfl
  have hroots : b.roots f = .error .rootsApart := by
    unfold Block.roots
    rw [hwalk]
    rfl
  refine ⟨hroots, ?_, fun index => ?_, fun index => ?_⟩
  · unfold Block.size
    rw [hroots]
    rfl
  · unfold Block.nth
    rw [hroots]
    rfl
  · unfold Block.root?
    rw [hwalk, Walk.nth?_of_lost rfl]

/-- A boundary that is not met is noticed by every read that walks up to it, and by no other: going
through a range, its length and its indexes from the end, and the root nodes of an instance, their
number, their indexes and the markup of the instance.  The entry of a range or the root node at a
position is looked for among the siblings that there are, and the read fails only if they are too
few. -/
theorem Session.reads_of_lost_ends (s : Session) :
    (∀ r : NodeRange, r.stop ∉ s.forest.after r.start →
      r.ReadsLost s.forest (s.forest.after r.start)) ∧
    ∀ (i : InstanceId) (first last : NodeId),
      (s.instanceAt i).block.ends = some (first, last) → last ∉ first :: s.forest.after first →
        (s.instanceAt i).block.ReadsLost s.forest (first :: s.forest.after first) ∧
          s.render i = .error .rootsApart := by
  refine ⟨fun r h => NodeRange.readsLost h, fun i first last hends h => ?_⟩
  have hlost := Block.readsLost hends h
  refine ⟨hlost, ?_⟩
  unfold Session.render
  rw [hlost.roots]
  rfl

/-- The list with the end of its range taken out, and an instance whose two root nodes have changed
places. -/
def lostEnds : Session :=
  { sampleList with
    forest := sampleList.forest.detach 5
    instances := #[{ template := 0, block := ⟨0, 7, some (4, 3)⟩, parts := [] }] }

/-- Behind the start of the range there are three siblings, so the fourth is not found; behind the
first root node there is one. -/
theorem Session.reads_of_lost_ends_lostEnds :
    (5 ∉ lostEnds.forest.after 2 ∧ NodeRange.size ⟨2, 5⟩ lostEnds.forest = .error .endNotReached ∧
      NodeRange.nth ⟨2, 5⟩ lostEnds.forest (3 : Nat) = .error .endNotReached) ∧
    3 ∉ 4 :: lostEnds.forest.after 4 ∧
      Block.root? ⟨0, 7, some (4, 3)⟩ lostEnds.forest (2 : Nat) = .error .rootsApart ∧
      lostEnds.render 0 = .error .rootsApart := by
  have hrange : 5 ∉ lostEnds.forest.after 2 := by decide
  have hroots : 3 ∉ 4 :: lostEnds.forest.after 4 := by decide
  have hlost := (Session.reads_of_lost_ends lostEnds).1 ⟨2, 5⟩ hrange
  obtain ⟨hblock, hrender⟩ := (Session.reads_of_lost_ends lostEnds).2 0 4 3 rfl hroots
  exact ⟨⟨hrange, hlost.size, hlost.nth 3⟩, hroots, hblock.root? 2, hrender⟩

/-- Although its end is lost, the range answers with the text that stood behind it, and the instance
with its first root node. -/
theorem entries_read_beyond_lost_ends :
    (5 ∉ lostEnds.forest.after 2 ∧ NodeRange.items ⟨2, 5⟩ sampleList.forest = .ok [3, 4] ∧
      NodeRange.item? ⟨2, 5⟩ lostEnds.forest 2 = .ok (some 6) ∧
      NodeRange.nth ⟨2, 5⟩ lostEnds.forest 2 = .ok 6) ∧
    3 ∉ 4 :: lostEnds.forest.after 4 ∧
      Block.root? ⟨0, 7, some (4, 3)⟩ lostEnds.forest 0 = .ok (some 4) := by
  decide

end LiveTemplate
