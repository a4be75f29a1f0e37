/-
  Pddl.Digraph — directed graphs over names.

  Vertices are kept in the order in which they were first named, edges in the order in which they
  were drawn, as pairs of indices into the vertices; an edge drawn twice is kept twice. What can
  be reached from a vertex is searched breadth first (`Digraph.search`): the vertices found so far
  are kept in the order in which they were found, and the vertex found as number `i` is looked
  from in round `i`. A graph with `n` vertices is searched in `n` rounds.
-/

import Pddl.Text.Quoted

namespace Pddl

structure Digraph where
  vertices : List String
  edges : List (Nat × Nat)
  deriving DecidableEq, Repr

namespace Digraph

def empty : Digraph := ⟨[], []⟩

/-! ## Drawing -/

def addVertex (g : Digraph) (v : String) : Digraph :=
  if v ∈ g.vertices then g else { g with vertices := g.vertices ++ [v] }

def addEdge (g : Digraph) (a b : String) : Digraph :=
  let h := (g.addVertex a).addVertex b
  { h with edges := h.edges ++ [(h.vertices.idxOf a, h.vertices.idxOf b)] }

/-! ## Looking -/

def nameOf (g : Digraph) (i : Nat) : String := g.vertices.getD i ""

def namedEdges (g : Digraph) : List (String × String) :=
  g.edges.map fun e => (g.nameOf e.1, g.nameOf e.2)

def nextIndices (g : Digraph) (i : Nat) : List Nat :=
  (g.edges.filter (·.1 == i)).map (·.2)

def previousIndices (g : Digraph) (i : Nat) : List Nat :=
  (g.edges.filter (·.2 == i)).map (·.1)

def successors (g : Digraph) (v : String) : List String :=
  match g.vertices.idxOf? v with
  | some i => (g.nextIndices i).map g.nameOf
  | none => []

def predecessors (g : Digraph) (v : String) : List String :=
  match g.vertices.idxOf? v with
  | some i => (g.previousIndices i).map g.nameOf
  | none => []

/-! ## Searching -/

/-- Appends the indices that are not yet in `order`, each once. -/
def discover (order found : List Nat) : List Nat :=
  found.foldl (fun order i => if i ∈ order then order else order ++ [i]) order

/-- One round: looks from the vertex that was found as number `round`. -/
def look (next : Nat → List Nat) (order : List Nat) (round : Nat) : List Nat :=
  match order[round]? with
  | some i => discover order (next i)
  | none => order

/-- The indices found from `origin` in `rounds` rounds, `origin` first. -/
def search (next : Nat → List Nat) (rounds origin : Nat) : List Nat :=
  (List.range rounds).foldl (look next) [origin]

/-- The names found from a vertex when looking along `next`, without the vertex itself. -/
def reach (g : Digraph) (next : Nat → List Nat) (v : String) : List String :=
  match g.vertices.idxOf? v with
  | some i => ((search next g.vertices.length i).drop 1).map g.nameOf
  | none => []

/-- The vertices that can be reached from `v`, nearest first, without `v`. -/
def reachableFrom (g : Digraph) (v : String) : List String := g.reach g.nextIndices v

def reaching (g : Digraph) (v : String) : List String := g.reach g.previousIndices v

def leadsTo (g : Digraph) (a b : String) : Bool := (g.reachableFrom a).contains b

/-! ## Comparing and writing -/

/-- Whether two lists without repetitions have the same members. -/
def sameMembers (a b : List String) : Bool := a.length == b.length && a.all b.contains

/-- Graphs agree when they have the same vertices, in whatever order, and the same edges, as
pairs of indices. -/
def agrees (g h : Digraph) : Bool := sameMembers g.vertices h.vertices && g.edges == h.edges

def text (g : Digraph) : String :=
  Text.joined "\n" (g.namedEdges.map fun e => e.1 ++ " -> " ++ e.2)

def debugText (g : Digraph) : String :=
  Text.record "DirectionalGraph"
    [("vertices", Text.enclosed "\x7b" "\x7d" (g.vertices.map fun v => Text.quoted v.toList)),
     ("edges", Text.enclosed "[" "]"
       (g.edges.map fun e => "(" ++ toString e.1 ++ ", " ++ toString e.2 ++ ")"))]

end Digraph

end Pddl
