/-
  Pddl.Source — a file as its readers see it.

  A reader is given the tree of a file, its language as announced by the host, and a locator for
  the positions it reports. `Source.definition?` finds what domains and problems have in common:
  a bracket `(define ...)` with a header `(domain name)` or `(problem name)`.
-/

import Pddl.Language
import Pddl.Tree

namespace Pddl

structure Source where
  uri : String
  version : Int
  language : Language
  tree : Tree
  locator : Locator

/-- The bracket `(define ...)` of a document, and the name in its header if it is written. -/
structure Definition where
  body : Node
  name? : Option Node
  deriving DecidableEq, Repr

namespace Definition

/-- The first definition in a document, if it has a header with this keyword. -/
def find? (t : Tree) (keyword : String) : Option Definition :=
  match t.root.section? "define" with
  | none => none
  | some body =>
    match body.section? keyword with
    | none => none
    | some header => some ⟨body, header.tokens[1]?⟩

def words (d : Definition) (keyword : String) : List String :=
  match d.body.section? keyword with
  | none => []
  | some s => (s.tokens.drop 1).map fun n => String.ofList n.text

/-- The text behind the keyword of a section, if there is such a section. -/
def body? (t : Tree) (d : Definition) (keyword : String) : Except Fault (Option (List Char)) :=
  match d.body.section? keyword with
  | none => .ok none
  | some s => (t.textAfterKeyword s).map some

def nameText? (d : Definition) : Option String := d.name?.map fun n => String.ofList n.text

def nameRange? (l : Locator) (d : Definition) : Except Fault (Option Range) :=
  match d.name? with
  | none => .ok none
  | some n => (Tree.rangeOf l n).map some

end Definition

end Pddl
