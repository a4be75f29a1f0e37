/-
  Pddl.Tree — the tree of a text.

  A tree keeps a text with its forest and gives access to its nodes by number. Building one never
  fails. The text that follows a keyword (`Tree.textAfterKeyword`) is cut out of the text by
  offsets; for brackets the cuts are always good, for other nodes they may not be.
-/

import Pddl.Locator
import Pddl.Node

namespace Pddl

structure Tree where
  text : List Char
  forest : Forest
  deriving DecidableEq, Repr

namespace Tree

def ofText (cs : List Char) : Tree := ⟨cs, Forest.ofText cs⟩

def root (t : Tree) : Node := ⟨0, [], 0, .document t.forest⟩

/-- All nodes; node number `i` stands at index `i`. -/
def nodes (t : Tree) : List Node := t.root :: t.root.descendants

def size (t : Tree) : Nat := t.forest.size + 1

/-- The node with a number, which has to be one of this tree's. -/
def node (t : Tree) (id : Nat) : Except Fault Node :=
  match t.nodes[id]? with
  | some n => .ok n
  | none => .error (.foreignNode id)

def nodeAt (t : Tree) (offset : Nat) : Node := t.root.nodeAt offset

/-- The offsets of the closing brackets that close nothing. -/
def strays (t : Tree) : List Nat :=
  (t.root.children.filter fun n => n.isToken && n.text == [')']).map (·.start)

def rangeOf (l : Locator) (n : Node) : Except Fault Range := l.rangeOf n.start n.stop

/-- The text between two offsets without the given comments; those that start before `start` are
passed over. -/
def cutAround (cs : List Char) (start stop : Nat) : List Node → Option (List Char)
  | [] => Text.slice? start stop cs
  | comment :: rest =>
    if comment.start < start then cutAround cs start stop rest
    else do
      let before ← Text.slice? start comment.start cs
      let after ← cutAround cs comment.stop stop rest
      some (before ++ after)

/-- The text from the first token of a node to its closing bracket, without comments. The closing
bracket is taken to be the last byte of the node unless the node is a bracket left open. -/
def textAfterKeyword (t : Tree) (n : Node) : Except Fault (List Char) :=
  let start := match n.firstToken? with
    | some token => token.stop
    | none => n.start + 1
  if n.isClosed && n.stop == 0 then .error .outOfBounds
  else
    let stop := if n.isClosed then n.stop - 1 else n.stop
    match cutAround t.text (min start stop) stop n.comments with
    | some cs => .ok cs
    | none => .error .badCut

def debugText (t : Tree) : String := "SyntaxTree(" ++ toString t.size ++ " nodes)"

end Tree

end Pddl
