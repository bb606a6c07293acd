/-! # Ranges of code points

A character class is a list of inclusive ranges in ascending order, so that a search may stop at
the first range that begins after the code point.
-/

namespace LessonText.Unicode

/-- An inclusive range of code points, first to last. -/
abbrev Range := Nat × Nat

/-- Membership in ascending ranges. -/
def inRanges : List Range → Nat → Bool
  | [], _ => false
  | (first, last) :: rest, n => if n < first then false else n ≤ last || inRanges rest n

end LessonText.Unicode
