/-
  Pddl.Locator — from offsets to positions and back.

  A locator turns offsets into positions and positions into offsets; either direction may refuse.
  The usual one reads a text: `LineMap.ofText` keeps the offset at which each line starts, a line
  starting after each line feed, and `LineMap.locator` looks offsets up in it. A carriage return
  belongs to the line it stands in. Two more locators need no text: `fixedAt` puts everything at
  one position, `descending` counts columns down from a given one.
-/

import Pddl.Fault
import Pddl.Text.Bytes

namespace Pddl

structure Locator where
  positionOf : Nat → Except Fault Position
  offsetOf : Position → Except Fault Nat

namespace Locator

/-- The range between two offsets: the start is located first, then the stop. -/
def rangeOf (l : Locator) (start stop : Nat) : Except Fault Range := do
  let a ← l.positionOf start
  let b ← l.positionOf stop
  Range.between a b

/-- Every offset is at `p`, every position at offset zero. -/
def fixedAt (p : Position) : Locator where
  positionOf _ := .ok p
  offsetOf _ := .ok 0

/-- Offset `o` is at column `top - o` of the first line, and column `c` at offset `top - c`. -/
def descending (top : Nat) : Locator where
  positionOf o := if o ≤ top then .ok ⟨0, (top - o).toUInt32⟩ else .error .outOfBounds
  offsetOf p := if p.column.toNat ≤ top then .ok (top - p.column.toNat) else .error .outOfBounds

end Locator

/-- Where the lines of a text start, and how many bytes it has. -/
structure LineMap where
  starts : List Nat
  size : Nat
  deriving DecidableEq, Repr

namespace LineMap

/-- The offsets right after the line feeds of a text that begins at offset `here`. -/
def startsFrom (here : Nat) : List Char → List Nat
  | [] => []
  | c :: cs =>
    let next := here + c.utf8Size
    if c = '\n' then next :: startsFrom next cs else startsFrom next cs

def ofText (cs : List Char) : LineMap := ⟨0 :: startsFrom 0 cs, Text.byteLength cs⟩

/-- The position of an offset: its line is the last that starts at or before it. -/
def positionOf (m : LineMap) (offset : Nat) : Except Fault Position :=
  if offset ≤ m.size then
    let before := m.starts.takeWhile (· ≤ offset)
    .ok ⟨(before.length - 1).toUInt32, (offset - before.getLast?.getD 0).toUInt32⟩
  else .error (.offsetBeyondText offset m.size)

/-- Where a line may last be pointed at: its line feed, or the end of the text. -/
def lineStop (m : LineMap) (line : Nat) : Nat :=
  match m.starts[line + 1]? with
  | some next => next - 1
  | none => m.size

/-- The offset of a position, which may stand on the line feed of its line but not past it. -/
def offsetOf (m : LineMap) (p : Position) : Except Fault Nat :=
  match m.starts[p.line.toNat]? with
  | none => .error (.lineBeyondText p.line.toNat)
  | some start =>
    let offset := start + p.column.toNat
    if offset ≤ m.lineStop p.line.toNat then .ok offset else .error (.columnBeyondLine p)

def lineStart (m : LineMap) (line : Nat) : Except Fault Nat :=
  match m.starts[line]? with
  | some start => .ok start
  | none => .error .outOfBounds

def locator (m : LineMap) : Locator := ⟨m.positionOf, m.offsetOf⟩

end LineMap

def Locator.ofText (cs : List Char) : Locator := (LineMap.ofText cs).locator

end Pddl
