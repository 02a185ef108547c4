/-! # Ranges of characters

A property of characters is a list of ranges of their numbers in ascending order.
-/
namespace Gateware.Unicode

/-- Whether a number lies in one of the ranges; both ends belong to a range. -/
def inRanges (n : Nat) : List (Nat × Nat) → Bool
  | [] => false
  | (first, last) :: rest => first ≤ n && (n ≤ last || inRanges n rest)

end Gateware.Unicode
