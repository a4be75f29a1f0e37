/-
  Pddl.Problem — what is known of a problem.

  A problem is a definition with a header `(problem name)`. It refers to its domain by name in a
  section `(:domain name)` and declares objects.
-/

import Pddl.Catalog
import Pddl.Source

namespace Pddl

structure Problem where
  /-- Absent while it is being typed. -/
  name? : Option String
  nameRange? : Option Range
  /-- The name of its domain. -/
  domain? : Option String
  objects : Catalog

namespace Problem

/-- A problem of which only the names are known. -/
def named (name? domain? : Option String) : Problem := ⟨name?, none, domain?, Catalog.empty⟩

def hasName (p : Problem) (name : String) : Bool := p.name?.any (Text.sameName · name)

def refersTo (p : Problem) (domain : String) : Bool := p.domain?.any (Text.sameName · domain)

def read (s : Source) : Except Fault (Option Problem) :=
  match Definition.find? s.tree "problem" with
  | none => .ok none
  | some d => do
    let objects ← d.body? s.tree ":objects"
    let range? ← d.nameRange? s.locator
    return some
      { name? := d.nameText?
        nameRange? := range?
        domain? := (d.words ":domain").head?
        objects := (objects.map Catalog.ofText).getD Catalog.empty }

end Problem

end Pddl
