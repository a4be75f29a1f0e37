/-
  Pddl.Node — the nodes of a text, with their places.

  A node is a document, a bracket or a terminal, together with its number, the offset of its
  first byte and the numbers of the nodes around it, the nearest first. Nodes are numbered in the
  order in which they start, a bracket before what it holds; the document is number zero. All of
  this follows from the forest, so `Forest.nodes` lists the nodes below a node in order, and
  `Forest.children` those directly below it.
-/

import Pddl.Forest
import Pddl.Text.Name
import Pddl.Text.Quoted

namespace Pddl

inductive Shape where
  | document (inner : Forest)
  | bracket (closed : Bool) (inner : Forest)
  | terminal (kind : Terminal) (text : List Char)
  deriving DecidableEq, Repr

structure Node where
  id : Nat
  /-- The numbers of the nodes around this one, the nearest first and the document last. -/
  ancestors : List Nat
  start : Nat
  shape : Shape
  deriving DecidableEq, Repr

/-- The nodes directly in a forest, numbered from `id` on and starting at offset `start`. -/
def Forest.children (above : List Nat) (id start : Nat) : Forest → List Node
  | .nil => []
  | .leaf kind text rest =>
    ⟨id, above, start, .terminal kind text⟩ ::
      rest.children above (id + 1) (start + Text.byteLength text)
  | .bracket closed inner rest =>
    ⟨id, above, start, .bracket closed inner⟩ ::
      rest.children above (id + 1 + inner.size)
        (start + 1 + inner.width + (Forest.closer closed).length)

/-- All nodes in a forest, each before those it holds, numbered from `id` on and starting at
offset `start`. -/
def Forest.nodes (above : List Nat) (id start : Nat) : Forest → List Node
  | .nil => []
  | .leaf kind text rest =>
    ⟨id, above, start, .terminal kind text⟩ ::
      rest.nodes above (id + 1) (start + Text.byteLength text)
  | .bracket closed inner rest =>
    ⟨id, above, start, .bracket closed inner⟩ ::
      (inner.nodes (id :: above) (id + 1) (start + 1) ++
        rest.nodes above (id + 1 + inner.size)
          (start + 1 + inner.width + (Forest.closer closed).length))

/-- The nodes in a forest as `nodes` lists them, followed by a list that may depend on the number
and the offset that come next. One pass over the forest finds both. -/
def Forest.nodesThen (above : List Nat) (id start : Nat) (f : Forest)
    (more : Nat → Nat → List Node) : List Node :=
  match f with
  | .nil => more id start
  | .leaf kind text rest =>
    ⟨id, above, start, .terminal kind text⟩ ::
      rest.nodesThen above (id + 1) (start + Text.byteLength text) more
  | .bracket closed inner rest =>
    ⟨id, above, start, .bracket closed inner⟩ ::
      inner.nodesThen (id :: above) (id + 1) (start + 1) fun id start =>
        rest.nodesThen above id (start + (Forest.closer closed).length) more

theorem Forest.nodesThen_eq (above : List Nat) (id start : Nat) (f : Forest)
    (more : Nat → Nat → List Node) :
    f.nodesThen above id start more =
      f.nodes above id start ++ more (id + f.size) (start + f.width) := by
  induction f generalizing above id start more with
  | nil => rfl
  | leaf kind text rest ih => simp [nodesThen, nodes, ih, size, width, Nat.add_assoc]
  | bracket closed inner rest ihi ihr =>
    simp [nodesThen, nodes, ihi, ihr, size, width, Nat.add_assoc]

namespace Node

/-! ## What a node is -/

def isDocument (n : Node) : Bool := match n.shape with | .document _ => true | _ => false

def isBracket (n : Node) : Bool := match n.shape with | .bracket _ _ => true | _ => false

def isTerminal (kind : Terminal) (n : Node) : Bool :=
  match n.shape with | .terminal k _ => k == kind | _ => false

def isToken (n : Node) : Bool := n.isTerminal .token

def isBlank (n : Node) : Bool := n.isTerminal .blank

def isComment (n : Node) : Bool := n.isTerminal .comment

def kindName (n : Node) : String :=
  match n.shape with
  | .document _ => "document"
  | .bracket _ _ => "bracket"
  | .terminal kind _ => kind.name

/-- False only for a bracket whose closing bracket is missing. -/
def isClosed (n : Node) : Bool := match n.shape with | .bracket closed _ => closed | _ => true

/-- What stands between the brackets of a node, or in the document. -/
def inner (n : Node) : Forest :=
  match n.shape with
  | .document inner => inner
  | .bracket _ inner => inner
  | .terminal _ _ => .nil

def innerStart (n : Node) : Nat := if n.isBracket then n.start + 1 else n.start

/-! ## Its text and place -/

def width (n : Node) : Nat :=
  match n.shape with
  | .document inner => inner.width
  | .bracket closed inner => 1 + inner.width + (Forest.closer closed).length
  | .terminal _ text => Text.byteLength text

def stop (n : Node) : Nat := n.start + n.width

def text (n : Node) : List Char :=
  match n.shape with
  | .document inner => inner.text
  | .bracket closed inner => '(' :: inner.text ++ Forest.closer closed
  | .terminal _ text => text

/-- The characters between the brackets of a node; the whole text of a node without brackets. -/
def nestedText (n : Node) : List Char :=
  match n.shape with
  | .document inner => inner.text
  | .bracket _ inner => inner.text
  | .terminal _ text => text

/-- The characters of the node without the comments below it. -/
def uncommented (n : Node) : List Char :=
  match n.shape with
  | .document inner => inner.uncommented
  | .bracket closed inner => '(' :: inner.uncommented ++ Forest.closer closed
  | .terminal _ text => text

def debugText (n : Node) : String :=
  n.kindName ++ "[" ++ toString n.start ++ ".." ++ toString n.stop ++ "]" ++ Text.quoted n.text

/-! ## The nodes around and below it -/

def parent? (n : Node) : Option Nat := n.ancestors.head?

def children (n : Node) : List Node :=
  n.inner.children (n.id :: n.ancestors) (n.id + 1) n.innerStart

def descendants (n : Node) : List Node :=
  n.inner.nodesThen (n.id :: n.ancestors) (n.id + 1) n.innerStart fun _ _ => []

theorem descendants_eq (n : Node) :
    n.descendants = n.inner.nodes (n.id :: n.ancestors) (n.id + 1) n.innerStart := by
  simp [descendants, Forest.nodesThen_eq]

/-- The children that are not blank. -/
def solidChildren (n : Node) : List Node := n.children.filter (!·.isBlank)

/-- The children that are neither blank nor comments. -/
def meaningfulChildren (n : Node) : List Node :=
  n.children.filter fun c => !c.isBlank && !c.isComment

def brackets (n : Node) : List Node := n.children.filter (·.isBracket)

def tokens (n : Node) : List Node := n.children.filter (·.isToken)

def comments (n : Node) : List Node := n.descendants.filter (·.isComment)

def firstToken? (n : Node) : Option Node := n.children.find? (·.isToken)

/-! ## Looking for a construct -/

def keyword? (n : Node) : Option String := n.firstToken?.map fun t => String.ofList t.text

/-- The first bracket in the node that begins with exactly this keyword. -/
def construct? (n : Node) (keyword : String) : Option Node :=
  n.brackets.find? fun b => b.keyword? == some keyword

/-- The first bracket in the node that begins with this keyword in any case. -/
def section? (n : Node) (keyword : String) : Option Node :=
  n.brackets.find? fun b => b.keyword?.any (Text.sameName · keyword)

/-- What a node was expected to have one of. -/
inductive Wanted where
  | child
  | solidChild
  deriving DecidableEq, Repr

inductive LookupError where
  | constructNotFound (keyword : String)
  | notSingle (wanted : Wanted) (found : Nat)
  deriving DecidableEq, Repr

def Wanted.name : Wanted → String
  | child => "child"
  | solidChild => "non-whitespace"

def LookupError.message : LookupError → String
  | constructNotFound keyword => "construct not found: (" ++ keyword ++ " ...)"
  | notSingle wanted found =>
    "expected exactly one " ++ wanted.name ++ " child but found " ++ toString found

def construct (n : Node) (keyword : String) : Except LookupError Node :=
  match n.construct? keyword with
  | some b => .ok b
  | none => .error (.constructNotFound keyword)

def only (wanted : Wanted) : List Node → Except LookupError Node
  | [n] => .ok n
  | ns => .error (.notSingle wanted ns.length)

def onlyChild (n : Node) : Except LookupError Node := only .child n.children

def onlySolidChild (n : Node) : Except LookupError Node := only .solidChild n.solidChildren

end Node

/-! ## The node at an offset -/

/-- Whether the node ends where its inside ends: it has no closing bracket. -/
def Node.endsOpen (n : Node) : Bool := !(n.isBracket && n.isClosed)

/-- Where looking for an offset in a forest leads. -/
inductive Sighting where
  /-- To the innermost node at the offset. -/
  | found (n : Node)
  /-- Past the forest, to the number and the offset that come next. -/
  | past (id start : Nat)

/-- Looks for an offset in a forest. A node is at the offsets of its bytes. Where the end of the
forest is open, the end of the forest still belongs to its last node if that is a terminal or a
bracket left open. -/
def Forest.sight (offset : Nat) (openEnd : Bool) (above : List Nat) (id start : Nat) :
    Forest → Sighting
  | .nil => .past id start
  | .leaf kind text rest =>
    let stop := start + Text.byteLength text
    if start ≤ offset && (offset < stop || offset == stop && openEnd && rest.isEmpty) then
      .found ⟨id, above, start, .terminal kind text⟩
    else rest.sight offset openEnd above (id + 1) stop
  | .bracket closed inner rest =>
    let openHere := openEnd && rest.isEmpty && !closed
    match inner.sight offset openHere (id :: above) (id + 1) (start + 1) with
    | .found n => .found n
    | .past next innerStop =>
      let stop := innerStop + (Forest.closer closed).length
      if start ≤ offset && (offset < stop || offset == stop && openHere) then
        .found ⟨id, above, start, .bracket closed inner⟩
      else rest.sight offset openEnd above next stop

/-- The innermost node at an offset, the node itself included: the node itself where nothing in it
is at the offset. -/
def Node.nodeAt (n : Node) (offset : Nat) : Node :=
  match n.inner.sight offset n.endsOpen (n.id :: n.ancestors) (n.id + 1) n.innerStart with
  | .found m => m
  | .past _ _ => n

end Pddl
