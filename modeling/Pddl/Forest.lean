/-
  Pddl.Forest — nested brackets.

  A forest is the sequence of things found between two brackets: terminals, and brackets with a
  forest of their own. A bracket knows whether its closing bracket was written; one that was not
  runs to the end of the text and is the last thing in its forest.

  Forests are assembled from the pieces of a text taken from the right (`Forest.push`). Going
  left, each closing bracket starts a fresh forest and sets the one read so far aside; the
  opening bracket that meets it takes the fresh forest as its inside and the one set aside as
  what follows. An opening bracket with nothing set aside is never closed, and takes all that was
  read. Forests still set aside when the text is used up stand behind closing brackets that close
  nothing: these stay in the document as tokens (`Forest.joinStrays`).

  Nothing is lost on the way: `text_ofLexemes`.
-/

import Pddl.Lexeme
import Pddl.Text.Bytes

namespace Pddl

inductive Forest where
  | nil
  | leaf (kind : Terminal) (text : List Char) (rest : Forest)
  | bracket (closed : Bool) (inner : Forest) (rest : Forest)
  deriving DecidableEq, Repr

namespace Forest

def isEmpty : Forest → Bool
  | nil => true
  | _ => false

def size : Forest → Nat
  | nil => 0
  | leaf _ _ rest => 1 + rest.size
  | bracket _ inner rest => 1 + inner.size + rest.size

def closer (closed : Bool) : List Char := if closed then [')'] else []

def text : Forest → List Char
  | nil => []
  | leaf _ text rest => text ++ rest.text
  | bracket closed inner rest => '(' :: inner.text ++ closer closed ++ rest.text

/-- The characters of a forest that are not in comments. -/
def uncommented : Forest → List Char
  | nil => []
  | leaf kind text rest => if kind = .comment then rest.uncommented else text ++ rest.uncommented
  | bracket closed inner rest =>
    '(' :: inner.uncommented ++ closer closed ++ rest.uncommented

def width : Forest → Nat
  | nil => 0
  | leaf _ text rest => Text.byteLength text + rest.width
  | bracket closed inner rest => 1 + inner.width + (closer closed).length + rest.width

/-- How deep its brackets are nested: a terminal has depth one. -/
def depth : Forest → Nat
  | nil => 0
  | leaf _ _ rest => max 1 rest.depth
  | bracket _ inner rest => max (1 + inner.depth) rest.depth

def append (f g : Forest) : Forest :=
  match f with
  | nil => g
  | leaf kind text rest => leaf kind text (rest.append g)
  | bracket closed inner rest => bracket closed inner (rest.append g)

instance : Append Forest := ⟨append⟩

/-- What has been read of a text from the right: the forest at hand, and those set aside by
closing brackets that wait for their opening one, the nearest first. -/
structure Partial where
  here : Forest
  aside : List Forest

/-- Reads one more piece on the left. -/
def push (piece : Lexeme) (p : Partial) : Partial :=
  match piece with
  | .terminal kind text => ⟨leaf kind text p.here, p.aside⟩
  | .closing => ⟨nil, p.here :: p.aside⟩
  | .opening =>
    match p.aside with
    | [] => ⟨bracket false p.here nil, []⟩
    | rest :: aside => ⟨bracket true p.here rest, aside⟩

/-- Puts the forests set aside back, each behind the closing bracket it waited at. -/
def joinStrays (here : Forest) : List Forest → Forest
  | [] => here
  | rest :: aside => here ++ leaf .token [')'] (joinStrays rest aside)

def ofLexemes (pieces : List Lexeme) : Forest :=
  let p := pieces.foldr push ⟨nil, []⟩
  joinStrays p.here p.aside

def ofText (cs : List Char) : Forest := ofLexemes (Lexeme.lexemes cs)

/-! ## No character is lost -/

theorem text_append (f g : Forest) : (f ++ g).text = f.text ++ g.text := by
  change (f.append g).text = _
  induction f with
  | nil => rfl
  | leaf kind text rest ih => simp [append, Forest.text, ih]
  | bracket closed inner rest _ ih => simp [append, Forest.text, ih]

theorem text_joinStrays_leaf (kind : Terminal) (cs : List Char) (here : Forest)
    (aside : List Forest) :
    (joinStrays (leaf kind cs here) aside).text = cs ++ (joinStrays here aside).text := by
  cases aside <;> simp [joinStrays, text_append, Forest.text]

theorem text_joinStrays_push (piece : Lexeme) (p : Partial) :
    (joinStrays (push piece p).here (push piece p).aside).text =
      piece.text ++ (joinStrays p.here p.aside).text := by
  match piece, p with
  | .terminal kind cs, ⟨here, aside⟩ => exact text_joinStrays_leaf kind cs here aside
  | .closing, ⟨here, aside⟩ => simp [push, joinStrays, text_append, Forest.text, Lexeme.text]
  | .opening, ⟨here, []⟩ => simp [push, joinStrays, Forest.text, Lexeme.text, closer]
  | .opening, ⟨here, [rest]⟩ =>
    simp [push, joinStrays, text_append, Forest.text, Lexeme.text, closer]
  | .opening, ⟨here, rest :: next :: aside⟩ =>
    simp [push, joinStrays, text_append, Forest.text, Lexeme.text, closer]

/-- The characters of the forest are those of the pieces. -/
theorem text_ofLexemes (pieces : List Lexeme) :
    (ofLexemes pieces).text = pieces.flatMap Lexeme.text := by
  induction pieces with
  | nil => rfl
  | cons piece pieces ih =>
    rw [List.flatMap_cons, ← ih]
    exact text_joinStrays_push piece _

/-- The characters of the forest of a text are the text. -/
@[simp] theorem text_ofText (cs : List Char) : (ofText cs).text = cs := by
  rw [ofText, text_ofLexemes, Lexeme.text_lexemes]

theorem width_eq (f : Forest) : f.width = Text.byteLength f.text := by
  induction f with
  | nil => rfl
  | leaf kind text rest ih => simp [width, Forest.text, ih]
  | bracket closed inner rest ihi ihr =>
    have h : '('.utf8Size = 1 := rfl
    have h' : ')'.utf8Size = 1 := rfl
    cases closed <;> simp [width, Forest.text, closer, ihi, ihr, h, h'] <;> omega

end Forest

end Pddl
