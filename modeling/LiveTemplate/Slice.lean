import LiveTemplate.Fault

/-!
# Positions in a sequence

A position counts from the start of a sequence, or from its end when it is negative.  A slice picks
the positions from a start up to a stop, left out, in strides that may go backwards.
-/

namespace LiveTemplate

set_option autoImplicit false

/-- The entry at a position; negative positions count from the end. -/
def nth? {α : Type} (entries : List α) (position : Int) : Option α :=
  let place := if position < 0 then position + entries.length else position
  if place < 0 then none else entries[place.toNat]?

/-- The bounds and the stride of a slice; absent ones mean the whole sequence, one by one. -/
structure Slice where
  start : Option Int := none
  stop : Option Int := none
  stride : Int := 1
  deriving DecidableEq, Repr

namespace Slice

/-- A bound as a position within the given limits, or one of the limits. -/
def clamp (length low high bound : Int) : Int :=
  if bound < 0 then max low (bound + length) else min high bound

/-- The number of strides from a start to a stop. -/
def count (start stop stride : Int) : Nat :=
  if 0 < stride then ((stop - start + stride - 1).fdiv stride).toNat
  else ((start - stop - stride - 1).fdiv (-stride)).toNat

/-- The positions that a slice picks from a sequence of the given length. -/
def positions (s : Slice) (length : Nat) : List Nat :=
  let low : Int := if 0 < s.stride then 0 else -1
  let high : Int := if 0 < s.stride then length else length - 1
  let bound (given : Option Int) (absent : Int) : Int :=
    (given.map (clamp length low high)).getD absent
  let start := bound s.start (if 0 < s.stride then low else high)
  let stop := bound s.stop (if 0 < s.stride then high else low)
  (List.range (count start stop s.stride)).map fun (i : Nat) => (start + i * s.stride).toNat

/-- The entries that a slice picks.  A slice has to get on. -/
def pick {α : Type} (s : Slice) (entries : List α) : Except Fault (List α) :=
  if s.stride = 0 then .error .slicesWithoutStride
  else .ok ((s.positions entries.length).filterMap (entries[·]?))

end Slice

end LiveTemplate
