import Mathlib

/-! # Time

Points in time and spans of it, both in nanoseconds. The source's saturating
difference of two points is subtraction of natural numbers.
-/

namespace PktKit

/-- A point in time, in nanoseconds since some start. -/
abbrev Instant := ℕ

/-- A span of time, in nanoseconds. -/
abbrev Duration := ℕ

namespace Duration

def fromMillis (n : ℕ) : Duration := n * 1000000

def fromSecs (n : ℕ) : Duration := n * 1000000000

end Duration

end PktKit
