/-!
# Character properties

A property of characters is the set of code points it holds of, kept as a list of inclusive
ranges in ascending order. `Property.holds` asks whether a character lies in one of them.
-/

namespace ModalEdit

/-- A set of code points, as inclusive ranges in ascending order. -/
structure Property where
  /-- First and last code point of each range. -/
  ranges : List (Nat × Nat)

namespace Property

/-- The character lies in one of the ranges. -/
def holds (p : Property) (c : Char) : Bool :=
  p.ranges.any fun r => decide (r.1 ≤ c.toNat) && decide (c.toNat ≤ r.2)

end Property

end ModalEdit
