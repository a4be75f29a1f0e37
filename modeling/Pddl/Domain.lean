/-
  Pddl.Domain — what is known of a domain.

  A domain is a definition with a header `(domain name)`. Of its sections those are read that
  relate it to other files: requirements, types and constants. A section is found by its keyword
  in any case; of several with one keyword the first counts.
-/

import Pddl.Catalog
import Pddl.Source

namespace Pddl

structure Domain where
  /-- Absent while it is being typed. -/
  name? : Option String
  nameRange? : Option Range
  requirements : List String
  types : Digraph
  constants : Catalog

namespace Domain

/-- A domain of which only the name is known. -/
def named (name? : Option String) : Domain := ⟨name?, none, [], Digraph.empty, Catalog.empty⟩

def hasName (d : Domain) (name : String) : Bool := d.name?.any (Text.sameName · name)

def requires (d : Domain) (requirement : String) : Bool :=
  d.requirements.any (Text.sameName · requirement)

def subtypesOf (d : Domain) (type : String) : List String := d.types.reaching type

def isSubtype (d : Domain) (type parent : String) : Bool := Hierarchy.isSubtype d.types type parent

/-- Reads the domain that a document defines, with the root its types inherit from. -/
def read (root : String) (s : Source) : Except Fault (Option Domain) :=
  match Definition.find? s.tree "domain" with
  | none => .ok none
  | some d => do
    let types ← d.body? s.tree ":types"
    let constants ← d.body? s.tree ":constants"
    let range? ← d.nameRange? s.locator
    return some
      { name? := d.nameText?
        nameRange? := range?
        requirements := d.words ":requirements"
        types := (types.map (Hierarchy.ofText root)).getD Digraph.empty
        constants := (constants.map Catalog.ofText).getD Catalog.empty }

end Domain

end Pddl
