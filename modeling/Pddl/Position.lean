/-
  Pddl.Position — places in a text by line and column, and ranges of them.

  Lines and columns count from zero, columns in bytes; both are 32-bit words. Positions are
  ordered by line, then by column. A range holds both its ends and never ends before it starts:
  the order of the ends is part of the type.
-/

namespace Pddl

structure Position where
  line : UInt32
  column : UInt32
  deriving DecidableEq, Repr

namespace Position

instance : LT Position where
  lt a b := a.line < b.line ∨ a.line = b.line ∧ a.column < b.column

instance : LE Position where
  le a b := a.line < b.line ∨ a.line = b.line ∧ a.column ≤ b.column

theorem lt_def {a b : Position} :
    a < b ↔ a.line < b.line ∨ a.line = b.line ∧ a.column < b.column := Iff.rfl

theorem le_def {a b : Position} :
    a ≤ b ↔ a.line < b.line ∨ a.line = b.line ∧ a.column ≤ b.column := Iff.rfl

instance (a b : Position) : Decidable (a < b) := decidable_of_iff _ lt_def.symm

instance (a b : Position) : Decidable (a ≤ b) := decidable_of_iff _ le_def.symm

instance : Ord Position where
  compare a b := compareOfLessAndEq a b

protected theorem le_refl (a : Position) : a ≤ a := Or.inr ⟨rfl, UInt32.le_refl _⟩

def text (p : Position) : String := toString p.line.toNat ++ ":" ++ toString p.column.toNat

end Position

structure Range where
  start : Position
  stop : Position
  start_le_stop : start ≤ stop
  deriving DecidableEq

namespace Range

def point (p : Position) : Range := ⟨p, p, p.le_refl⟩

/-- Whether a position lies in the range, its ends included. -/
def contains (r : Range) (p : Position) : Bool := r.start ≤ p && p ≤ r.stop

def encloses (r other : Range) : Bool := r.contains other.start && r.contains other.stop

def precedes (r other : Range) : Bool := r.stop ≤ other.start

def meets (r other : Range) : Bool := r.start ≤ other.stop && other.start ≤ r.stop

def text (r : Range) : String := "[" ++ r.start.text ++ ", " ++ r.stop.text ++ "]"

end Range

end Pddl
