/-
Sets of code points as lists of closed ranges.

A property of characters that a standard gives by a table is a list of pairs,
first and last code point of a run. Membership is a linear search; the tables
are sorted, so the search stops at the first run that begins after the code
point.
-/

set_option autoImplicit false

namespace Provenance

/-- Closed ranges of code points, in ascending order and disjoint. -/
abbrev CodeRanges := List (Nat × Nat)

/-- Whether a code point lies in one of the ranges. The search ends at the first range that starts
beyond the code point, which is right because the ranges ascend. -/
def CodeRanges.has : CodeRanges → Nat → Bool
  | [], _ => false
  | (first, last) :: rest, n =>
    if n < first then false
    else if n ≤ last then true
    else has rest n

end Provenance
