/-
  Pddl.Text.Printable — characters that show themselves.

  A character is printable when it shows something of its own, or is the space: letters, digits,
  punctuation, symbols and the marks that stand on their own are. Not printable are control and
  format characters, blanks other than the space, marks that belong to the character before them,
  the letters that only fill a place, code points for private use and those without a character.
-/

import Pddl.Text.Blank
import Pddl.Text.Mark
import Pddl.Text.Unassigned

namespace Pddl.Text

/-- Control characters: general category Cc. -/
def isControl (c : Char) : Bool := c.toNat < 0x20 || (0x7F ≤ c.toNat && c.toNat < 0xA0)

/-- The code points of format characters: general category Cf. -/
def formatRanges : List (Nat × Nat) :=
  [(0xAD, 0xAD), (0x600, 0x605), (0x61C, 0x61C), (0x6DD, 0x6DD), (0x70F, 0x70F), (0x890, 0x891),
   (0x8E2, 0x8E2), (0x180E, 0x180E), (0x200B, 0x200F), (0x202A, 0x202E), (0x2060, 0x2064),
   (0x2066, 0x206F), (0xFEFF, 0xFEFF), (0xFFF9, 0xFFFB), (0x110BD, 0x110BD), (0x110CD, 0x110CD),
   (0x13430, 0x1343F), (0x1BCA0, 0x1BCA3), (0x1D173, 0x1D17A), (0xE0001, 0xE0001),
   (0xE0020, 0xE007F)]

theorem ascending_formatRanges : ascending formatRanges = true := by decide +kernel

/-- The code points for private use: general category Co. -/
def privateRanges : List (Nat × Nat) :=
  [(0xE000, 0xF8FF), (0xF0000, 0xFFFFD), (0x100000, 0x10FFFD)]

/-- The code points of letters that only fill a place: the Hangul fillers, the one kind of letter
with the property Default_Ignorable_Code_Point. -/
def fillerRanges : List (Nat × Nat) :=
  [(0x115F, 0x1160), (0x3164, 0x3164), (0xFFA0, 0xFFA0)]

def isFormat (c : Char) : Bool := inRanges formatRanges c.toNat

def isPrivate (c : Char) : Bool := inRanges privateRanges c.toNat

def isFiller (c : Char) : Bool := inRanges fillerRanges c.toNat

def isPrintable (c : Char) : Bool :=
  c == ' ' ||
    !(isControl c || isBlank c || isFormat c || isMark c || isFiller c || isPrivate c ||
      isUnassigned c)

end Pddl.Text
