/-
  Pddl.Proofs.Types.Indices — the indices of a graph stand for the names that it was drawn with.

  An edge is kept as a pair of indices, and what is asked of a graph is answered with names that
  are looked up by indices. An index behind the last vertex has no name, and looking it up would
  fail (`name?`). In a graph that was drawn this does not happen:
  - `extendedBy_drawn`: drawing goes on behind what there is, so that an index keeps its name;
  - `pairwise_idxOf_eraseDups`: the vertices stand in the order in which their names were first used;
  - `WellDrawn.looksUp`: each answer is found by look-ups none of which fails;
  - `indices_stand_for_names`: so the graph says just what was drawn.
-/

import Pddl.Proofs.Types.Agreement
import Pddl.Proofs.Types.Objects

namespace Pddl.Digraph

variable {g : Digraph} {i : Nat}

/-! ## Going on -/

/-- `h` has all of `g`, with more vertices and edges behind. -/
structure ExtendedBy (g h : Digraph) : Prop where
  vertices : g.vertices <+: h.vertices
  edges : g.edges <+: h.edges

theorem extendedBy_addVertex (g : Digraph) (v : String) : g.ExtendedBy (g.addVertex v) := by
  refine ⟨prefix_addVertex g v, [], ?_⟩
  rw [edges_addVertex, List.append_nil]

theorem extendedBy_addEdge (g : Digraph) (a b : String) : g.ExtendedBy (g.addEdge a b) := by
  constructor
  · rw [vertices_addEdge]
    exact (prefix_addVertex g a).trans (prefix_addVertex _ b)
  · have hedges : g.edges = ((g.addVertex a).addVertex b).edges := by simp
    rw [hedges]
    exact List.prefix_append _ _

theorem extendedBy_stroke (g : Digraph) (x : Stroke) : g.ExtendedBy (g.stroke x) := by
  cases x with
  | vertex v => exact extendedBy_addVertex g v
  | edge a b => exact extendedBy_addEdge g a b

theorem extendedBy_foldl (g : Digraph) (strokes : List Stroke) :
    g.ExtendedBy (strokes.foldl stroke g) := by
  induction strokes generalizing g with
  | nil => exact ⟨List.prefix_refl _, List.prefix_refl _⟩
  | cons x strokes ih =>
    have hfirst := extendedBy_stroke g x
    have hrest := ih (g.stroke x)
    exact ⟨hfirst.vertices.trans hrest.vertices, hfirst.edges.trans hrest.edges⟩

theorem extendedBy_drawn (strokes more : List Stroke) :
    (drawn strokes).ExtendedBy (drawn (strokes ++ more)) := by
  unfold drawn
  rw [List.foldl_append]
  exact extendedBy_foldl _ more

/-! ## The order of first use -/

/-- Names without repetitions stand in the order in which they are first used. -/
theorem pairwise_idxOf_eraseDups (used : List String) :
    used.eraseDups.Pairwise fun v w => used.idxOf v < used.idxOf w := by
  induction used using List.reverseRecOn with
  | nil => exact .nil
  | append_singleton used last ih =>
    have hbefore : used.eraseDups.Pairwise fun v w =>
        (used ++ [last]).idxOf v < (used ++ [last]).idxOf w := by
      apply ih.imp_of_mem
      intro v w hv hw hlt
      rw [List.idxOf_append_of_mem (List.mem_eraseDups.mp hv),
        List.idxOf_append_of_mem (List.mem_eraseDups.mp hw)]
      exact hlt
    rw [Catalog.eraseDups_concat]
    split
    · exact hbefore
    · -- a new name is first used behind all the others
      rename_i hnew
      rw [List.mem_eraseDups] at hnew
      refine List.pairwise_append.mpr ⟨hbefore, List.pairwise_singleton _ last, ?_⟩
      intro v hv w hw
      have hv := List.mem_eraseDups.mp hv
      have hlt := List.idxOf_lt_length_of_mem hv
      rw [List.mem_singleton.mp hw, List.idxOf_append_of_mem hv, List.idxOf_append_of_notMem hnew]
      omega

/-! ## Looking up -/

def name? (g : Digraph) (i : Nat) : Option String := g.vertices[i]?

def names? (g : Digraph) (e : Nat × Nat) : Option (String × String) := do
  let a ← g.name? e.1
  let b ← g.name? e.2
  some (a, b)

/-- The names of the indices that `indices` gives for a vertex, and no names for what is no
vertex. -/
def lookFrom (g : Digraph) (indices : Nat → List Nat) (v : String) : List String :=
  match g.vertices.idxOf? v with
  | some i => (indices i).map g.nameOf
  | none => []

def lookFrom? (g : Digraph) (indices : Nat → List Nat) (v : String) : Option (List String) :=
  match g.vertices.idxOf? v with
  | some i => (indices i).mapM g.name?
  | none => some []

theorem name?_eq (hi : i < g.vertices.length) : g.name? i = some (g.nameOf i) :=
  (nameOf_eq_iff hi).mp rfl

theorem names?_eq {e : Nat × Nat}
    (he : e.1 < g.vertices.length ∧ e.2 < g.vertices.length) : g.names? e = some (g.names e) := by
  unfold names? names
  rw [name?_eq he.1, name?_eq he.2]
  rfl

/-- If no look-up fails, together they give what look-ups with a default give. -/
theorem mapM_eq_some_map {α β : Type} {look? : α → Option β} {look : α → β} {xs : List α}
    (hlook : ∀ x ∈ xs, look? x = some (look x)) : xs.mapM look? = some (xs.map look) := by
  induction xs with
  | nil => rfl
  | cons x xs ih =>
    obtain ⟨hx, hxs⟩ := List.forall_mem_cons.mp hlook
    rw [List.mapM_cons, hx, ih hxs]
    rfl

/-- No look-up fails if `indices` leads from vertices to vertices only. -/
theorem lookFrom?_eq {indices : Nat → List Nat}
    (hindices : ∀ i < g.vertices.length, ∀ j ∈ indices i, j < g.vertices.length) (v : String) :
    g.lookFrom? indices v = some (g.lookFrom indices v) := by
  unfold lookFrom? lookFrom
  cases hv : g.vertices.idxOf? v with
  | none => rfl
  | some i =>
    obtain ⟨hi, -⟩ := List.idxOf?_eq_some_iff.mp hv
    exact mapM_eq_some_map fun j hj => name?_eq (hindices i hi j hj)

def found (g : Digraph) (next : Nat → List Nat) (i : Nat) : List Nat :=
  (search next g.vertices.length i).drop 1

theorem found_within {next : Nat → List Nat}
    (hnext : ∀ i j, j ∈ next i → i < g.vertices.length ∧ j < g.vertices.length)
    (hi : i < g.vertices.length) : ∀ j ∈ g.found next i, j < g.vertices.length := by
  intro j hj
  have hs := searched_search next g.vertices.length i
  exact lt_of_reached hnext hi (hs.reached j (List.mem_of_mem_drop hj))

/-- Everything that is asked of a graph is answered by look-ups none of which fails. -/
structure LooksUp (g : Digraph) : Prop where
  namedEdges : g.edges.mapM g.names? = some g.namedEdges
  successors : ∀ v, g.lookFrom? g.nextIndices v = some (g.successors v)
  predecessors : ∀ v, g.lookFrom? g.previousIndices v = some (g.predecessors v)
  reachableFrom : ∀ v, g.lookFrom? (g.found g.nextIndices) v = some (g.reachableFrom v)
  reaching : ∀ v, g.lookFrom? (g.found g.previousIndices) v = some (g.reaching v)

theorem WellDrawn.looksUp (hg : g.WellDrawn) : g.LooksUp where
  namedEdges := mapM_eq_some_map fun e he => names?_eq (hg.within e he)
  successors := lookFrom?_eq fun i _ j hj => (hg.next_within i j hj).2
  predecessors := lookFrom?_eq fun i _ j hj => (hg.previous_within i j hj).2
  reachableFrom := lookFrom?_eq fun _ => found_within hg.next_within
  reaching := lookFrom?_eq fun _ => found_within hg.previous_within

/-! ## Of graphs that were drawn -/

/-- In every graph that was drawn:
- the vertices are the names that were used, each once, in the order in which they were first used;
- the edges by names are those that were drawn, in the order in which they were drawn and with
  repetitions;
- they are kept by the places of their ends, which are places of vertices, and whatever is drawn
  later leaves vertices and edges where they are;
- so no look-up of a name fails;
- the successors of a vertex are the ends of the edges that were drawn from it, and the
  predecessors are the starts of those that were drawn to it, in order. -/
theorem indices_stand_for_names (strokes : List Stroke) :
    let g := drawn strokes
    let used := strokes.flatMap Stroke.names
    let edges := strokes.flatMap Stroke.edges
    g.vertices = used.eraseDups ∧
    g.vertices.Pairwise (fun v w => used.idxOf v < used.idxOf w) ∧
    g.namedEdges = edges ∧
    g.WellDrawn ∧
    g.edges = edges.map g.places ∧
    (∀ more, g.ExtendedBy (drawn (strokes ++ more))) ∧
    g.LooksUp ∧
    ∀ v,
      g.successors v = (edges.filter (·.1 == v)).map (·.2) ∧
      g.predecessors v = (edges.filter (·.2 == v)).map (·.1) := by
  intro g used edges
  have hg : g.WellDrawn := wellDrawn_drawn strokes
  have hvertices : g.vertices = used.eraseDups := vertices_drawn strokes
  have hedges : g.namedEdges = edges := namedEdges_drawn strokes
  refine ⟨hvertices, ?_, hedges, hg, ?_, extendedBy_drawn strokes, hg.looksUp, fun v => ⟨?_, ?_⟩⟩
  · rw [hvertices]
    exact pairwise_idxOf_eraseDups used
  · rw [← hedges]
    exact (hg.map_places_names hg.within).symm
  · rw [hg.successors_eq, hedges]
  · rw [hg.predecessors_eq, hedges]

/-- Names used again, an edge drawn twice and one from a vertex to itself. -/
example :
    let g := drawn [.vertex "c", .edge "a" "b", .edge "a" "a", .edge "a" "b", .edge "c" "a"]
    g.vertices = ["c", "a", "b"] ∧ g.edges = [(1, 2), (1, 1), (1, 2), (0, 1)] ∧
      g.successors "a" = ["b", "a", "b"] ∧ g.predecessors "a" = ["a", "c"] ∧
      g.predecessors "d" = [] := by
  decide

end Pddl.Digraph
