/-!
# Membership in a table of code point ranges
-/

namespace LiveTemplate.Text

set_option autoImplicit false

/-- Whether a code point lies in one of the inclusive ranges. -/
def inRanges (ranges : List (Nat × Nat)) (n : Nat) : Bool :=
  ranges.any fun range => range.1 ≤ n && n ≤ range.2

end LiveTemplate.Text
