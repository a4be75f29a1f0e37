/-
  Pddl.Fault — requests that have no answer.

  A fault is a request outside what an operation is defined for: an offset or a position that is
  not in the text, a range with its ends exchanged, a node of another tree, a cut inside a
  character. The wording of all of them is in `message?`; the last two have none.
-/

import Pddl.Position

namespace Pddl

inductive Fault where
  | offsetBeyondText (offset size : Nat)
  | lineBeyondText (line : Nat)
  | columnBeyondLine (position : Position)
  | reversedRange (start stop : Position)
  | foreignNode (id : Nat)
  /-- A line, or an offset, that does not exist. -/
  | outOfBounds
  /-- A cut that is reversed or falls inside a character. -/
  | badCut
  deriving DecidableEq, Repr

namespace Fault

def message? : Fault → Option String
  | offsetBeyondText offset size =>
    some ("offset " ++ toString offset ++ " is beyond the end of the text (" ++ toString size ++
      ")")
  | lineBeyondText line => some ("line " ++ toString line ++ " is beyond the end of the text")
  | columnBeyondLine p => some ("position " ++ p.text ++ " is beyond the end of its line")
  | reversedRange start stop =>
    some ("range ends before it starts: " ++ start.text ++ " > " ++ stop.text)
  | foreignNode id => some ("node NodeId(" ++ toString id ++ ") does not belong to this tree")
  | outOfBounds => none
  | badCut => none

end Fault

/-- The range between two positions, which must be given in order. -/
def Range.between (start stop : Position) : Except Fault Range :=
  if h : start ≤ stop then .ok ⟨start, stop, h⟩ else .error (.reversedRange start stop)

end Pddl
