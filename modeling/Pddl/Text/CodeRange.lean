/-
  Pddl.Text.CodeRange — sets of code points as lists of ranges.

  A range is given by its first and its last code point. A list of ranges is `ascending` when each
  range ends at or after its start, and the next starts after it with a gap in between; then it is
  the shortest list for its set.
-/

namespace Pddl.Text

def inRanges (ranges : List (Nat × Nat)) (code : Nat) : Bool :=
  ranges.any fun r => r.1 ≤ code && code ≤ r.2

def ascending : List (Nat × Nat) → Bool
  | [] => true
  | [r] => r.1 ≤ r.2
  | r :: s :: rest => r.1 ≤ r.2 && r.2 + 1 < s.1 && ascending (s :: rest)

end Pddl.Text
