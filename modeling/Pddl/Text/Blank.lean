/-
  Pddl.Text.Blank — blank characters, words and lines.

  A text is a list of characters. A character is blank when it has the Unicode property
  White_Space: the ASCII blanks with vertical tab and form feed, NEL, the no-break space and the
  typographic spaces, the line and paragraph separators, and the ideographic space. Zero-width
  spaces and byte order marks are not blank.

  - `words` are the maximal runs of characters that are not blank.
  - `lines` are the pieces between line feeds; a text has one more line than line feeds.
  - `trim` drops the blanks at both ends.
-/

namespace Pddl.Text

/-- A character is blank when its code point has the property White_Space. -/
def isBlank (c : Char) : Bool :=
  let n := c.toNat
  (0x09 ≤ n && n ≤ 0x0D) || n == 0x20 || n == 0x85 || n == 0xA0 || n == 0x1680 ||
    (0x2000 ≤ n && n ≤ 0x200A) || n == 0x2028 || n == 0x2029 || n == 0x202F || n == 0x205F ||
    n == 0x3000

def extendFirst (c : Char) (pieces : List (List Char)) : List (List Char) :=
  match pieces with
  | [] => [[c]]
  | piece :: rest => (c :: piece) :: rest

def words : List Char → List (List Char)
  | [] => []
  | c :: cs =>
    if isBlank c then words cs
    else if (cs.head?.map isBlank).getD true then [c] :: words cs
    else extendFirst c (words cs)

def lines : List Char → List (List Char)
  | [] => [[]]
  | c :: cs => if c = '\n' then [] :: lines cs else extendFirst c (lines cs)

/-- Whether a text holds a character that is not blank. -/
def hasInk (cs : List Char) : Bool := cs.any (!isBlank ·)

def trim (cs : List Char) : List Char :=
  ((cs.dropWhile isBlank).reverse.dropWhile isBlank).reverse

def holds (word : List Char) : List Char → Bool
  | [] => word.isEmpty
  | c :: cs => word.isPrefixOf (c :: cs) || holds word cs

/-- The parts before and after the last `sep`, when there is one. -/
def splitLast? (sep : Char) (cs : List Char) : Option (List Char × List Char) :=
  let back := cs.reverse
  match back.dropWhile (· != sep) with
  | [] => none
  | _ :: front => some (front.reverse, (back.takeWhile (· != sep)).reverse)

end Pddl.Text
