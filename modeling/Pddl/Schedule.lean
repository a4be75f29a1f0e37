/-
  Pddl.Schedule — plans and happenings.

  Both are written one step to a line. Comments such as `;;!domain: logistics` say which domain
  and which problem they solve; the first that names a domain gives the domain, the first that
  names a problem the problem. A line counts as a step when it holds something besides blanks
  and comments.
-/

import Pddl.Source

namespace Pddl

/-- What a comment can say of a plan. -/
inductive Annotation.Field where
  | domain
  | problem
  deriving DecidableEq, Repr

structure Annotation where
  field : Annotation.Field
  value : String
  deriving DecidableEq, Repr

namespace Annotation

def skipBlanks (cs : List Char) : List Char := cs.dropWhile Text.isBlank

def expect? (c : Char) : List Char → Option (List Char)
  | [] => none
  | d :: rest => if d = c then some rest else none

def expectWord? (word cs : List Char) : Option (List Char) :=
  if (cs.take word.length).map Char.toLower = word then some (cs.drop word.length) else none

/-- The field a text begins with, and the text behind it. -/
def field? (cs : List Char) : Option (Field × List Char) :=
  match expectWord? "domain".toList cs, expectWord? "problem".toList cs with
  | some rest, _ => some (.domain, rest)
  | none, some rest => some (.problem, rest)
  | none, none => none

/-- Reads a comment: semicolons, an exclamation mark, a field, a colon, and a value without
blanks; blanks may stand between them, and anything behind. -/
def ofComment? (cs : List Char) : Option Annotation := do
  let rest ← expect? ';' cs
  let rest ← expect? '!' (skipBlanks (rest.dropWhile (· == ';')))
  let (field, rest) ← field? (skipBlanks rest)
  let rest ← expect? ':' (skipBlanks rest)
  let value := (skipBlanks rest).takeWhile (!Text.isBlank ·)
  if value.isEmpty then none else some ⟨field, String.ofList value⟩

end Annotation

/-- The names of the domain and the problem that a plan solves. -/
structure Solved where
  domain? : Option String
  problem? : Option String
  deriving DecidableEq, Repr

namespace Solved

def nothing : Solved := ⟨none, none⟩

def first? (field : Annotation.Field) (notes : List Annotation) : Option String :=
  (notes.find? (·.field == field)).map (·.value)

/-- What the comments of a document say, at any depth. -/
def read (t : Tree) : Solved :=
  let notes := t.root.comments.filterMap fun n => Annotation.ofComment? n.text
  ⟨first? .domain notes, first? .problem notes⟩

end Solved

structure Schedule where
  solved : Solved
  /-- The number of steps. -/
  steps : Nat
  deriving DecidableEq, Repr

namespace Schedule

/-- The number of lines that hold something besides blanks and comments. -/
def inkedLines (t : Tree) : Nat := (Text.lines t.root.uncommented).countP Text.hasInk

def read (t : Tree) : Schedule := ⟨Solved.read t, inkedLines t⟩

def beginsWithDefinition (t : Tree) : Bool :=
  match t.root.meaningfulChildren.head? with
  | some n => n.isBracket && n.keyword?.any (Text.sameName · "define")
  | none => false

end Schedule

end Pddl
