/-
  Pddl.Hierarchy — types and what they inherit from.

  A hierarchy is a graph with an edge from each type to every type it is declared with. Each type
  declared with none inherits from the root; the root inherits from nothing, whatever is declared
  about it.
-/

import Pddl.Digraph
import Pddl.TypedList

namespace Pddl.Hierarchy

/-- The root of a hierarchy when no other is given, and the type of an object declared with
none. -/
def defaultRoot : String := "object"

def declare (root : String) (type? : Option String) (g : Digraph) (name : String) : Digraph :=
  if name = root then g.addVertex name
  else
    match type? with
    | some type => g.addEdge name type
    | none => g.addVertex name

def declareGroup (root : String) (g : Digraph) (group : TypedList.Group) : Digraph :=
  group.names.foldl (declare root group.type?) g

/-- The types other than the root that inherit from nothing. -/
def tops (root : String) (g : Digraph) : List String :=
  g.vertices.filter fun v => v != root && (g.successors v).isEmpty

def ofText (root : String) (declaration : List Char) : Digraph :=
  let declared := (TypedList.groups declaration).foldl (declareGroup root) Digraph.empty
  (tops root declared).foldl (fun g v => g.addEdge v root) declared

def isSubtype (g : Digraph) (type parent : String) : Bool := type == parent || g.leadsTo type parent

end Pddl.Hierarchy
