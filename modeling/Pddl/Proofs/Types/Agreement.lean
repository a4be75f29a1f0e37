/-
  Pddl.Proofs.Types.Agreement — what graphs that agree have in common.

  Graphs agree when they have the same vertices, in whatever order, and the same edges as pairs of
  indices. An index is a place in the order of the vertices, so that the same pair may stand for
  edges between different vertices. What agreeing says of the named edges is this: those of the one
  graph are those of the other with each vertex replaced by the vertex in the same place
  (`agrees_iff_counterparts`).
  - `namedEdges_eq_iff`: so the named edges of graphs that agree are the same if the vertices at
    the ends of edges have the same places in both;
  - `a_turned_edge_agrees`: an edge and the edge the other way round agree.
-/

import Pddl.Proofs.Types.Search

namespace Pddl.Digraph

variable {g h : Digraph} {i : Nat}

/-! ## Places -/

theorem WellDrawn.idxOf_nameOf (hg : g.WellDrawn) (hi : i < g.vertices.length) :
    g.vertices.idxOf (g.nameOf i) = i := by
  have hmem := nameOf_mem hi
  exact hg.nameOf_inj (List.idxOf_lt_length_iff.mpr hmem) hi (nameOf_idxOf hmem)

def places (g : Digraph) (e : String × String) : Nat × Nat :=
  (g.vertices.idxOf e.1, g.vertices.idxOf e.2)

def names (g : Digraph) (e : Nat × Nat) : String × String := (g.nameOf e.1, g.nameOf e.2)

theorem WellDrawn.places_names (hg : g.WellDrawn) {e : Nat × Nat}
    (he : e.1 < g.vertices.length ∧ e.2 < g.vertices.length) : g.places (g.names e) = e := by
  unfold places names
  rw [hg.idxOf_nameOf he.1, hg.idxOf_nameOf he.2]

/-- Index pairs within a graph are found again by the names that they stand for. -/
theorem WellDrawn.map_places_names (hg : g.WellDrawn) {edges : List (Nat × Nat)}
    (hedges : ∀ e ∈ edges, e.1 < g.vertices.length ∧ e.2 < g.vertices.length) :
    (edges.map g.names).map g.places = edges := by
  rw [List.map_map]
  exact (List.map_congr_left fun e he => hg.places_names (hedges e he)).trans (List.map_id edges)

/-! ## Agreeing -/

theorem sameMembers_iff {a b : List String} (ha : a.Nodup) (hb : b.Nodup) :
    sameMembers a b = true ↔ ∀ v, v ∈ a ↔ v ∈ b := by
  rw [← List.perm_ext_iff_of_nodup ha hb]
  simp only [sameMembers, Bool.and_eq_true, beq_iff_eq, List.all_eq_true, List.contains_iff_mem]
  constructor
  · intro ⟨hlength, hsub⟩
    exact (List.subperm_of_subset ha hsub).perm_of_length_le (Nat.le_of_eq hlength.symm)
  · intro hperm
    exact ⟨hperm.length_eq, fun v hv => hperm.subset hv⟩

def SameVertices (g h : Digraph) : Prop := ∀ v, v ∈ g.vertices ↔ v ∈ h.vertices

theorem agrees_iff (hg : g.WellDrawn) (hh : h.WellDrawn) :
    g.agrees h = true ↔ g.SameVertices h ∧ g.edges = h.edges := by
  unfold agrees SameVertices
  rw [Bool.and_eq_true, sameMembers_iff hg.distinct hh.distinct, beq_iff_eq]

theorem SameVertices.length_eq (hsame : g.SameVertices h) (hg : g.WellDrawn) (hh : h.WellDrawn) :
    g.vertices.length = h.vertices.length :=
  ((List.perm_ext_iff_of_nodup hg.distinct hh.distinct).mpr hsame).length_eq

/-- The vertex of `h` in the place that `v` has in `g`. -/
def counterpart (g h : Digraph) (v : String) : String := h.nameOf (g.vertices.idxOf v)

theorem map_counterpart_namedEdges (hg : g.WellDrawn) (h : Digraph) :
    g.namedEdges.map (fun e => (g.counterpart h e.1, g.counterpart h e.2)) =
      g.edges.map h.names := by
  unfold namedEdges
  rw [List.map_map]
  apply List.map_congr_left
  intro e he
  obtain ⟨hi, hj⟩ := hg.within e he
  show (h.nameOf _, h.nameOf _) = (h.nameOf _, h.nameOf _)
  rw [hg.idxOf_nameOf hi, hg.idxOf_nameOf hj]

/-- Graphs agree if they have the same vertices, and the edges of the one are those of the other
between the counterparts of the vertices. -/
theorem agrees_iff_counterparts (hg : g.WellDrawn) (hh : h.WellDrawn) :
    g.agrees h = true ↔ g.SameVertices h ∧
      h.namedEdges = g.namedEdges.map fun e => (g.counterpart h e.1, g.counterpart h e.2) := by
  rw [agrees_iff hg hh, map_counterpart_namedEdges hg]
  refine and_congr_right fun hsame => ⟨fun e => e ▸ rfl, fun e => ?_⟩
  have hwithin : ∀ e ∈ g.edges, e.1 < h.vertices.length ∧ e.2 < h.vertices.length := by
    rw [← hsame.length_eq hg hh]
    exact hg.within
  calc g.edges = (g.edges.map h.names).map h.places := (hh.map_places_names hwithin).symm
    _ = h.namedEdges.map h.places := by rw [e]
    _ = h.edges := hh.map_places_names hh.within

/-- Graphs that agree have the same named edges if the ends of each edge have the same places. -/
theorem namedEdges_eq_iff (hg : g.WellDrawn) (hh : h.WellDrawn) (hagree : g.agrees h = true) :
    g.namedEdges = h.namedEdges ↔ ∀ a b, g.Edge a b →
      g.vertices.idxOf a = h.vertices.idxOf a ∧ g.vertices.idxOf b = h.vertices.idxOf b := by
  obtain ⟨hsame, hedges⟩ := (agrees_iff hg hh).mp hagree
  constructor
  · intro e a b hedge
    have hplaces : g.namedEdges.map g.places = g.namedEdges.map h.places := by
      calc g.namedEdges.map g.places = g.edges := hg.map_places_names hg.within
        _ = h.edges := hedges
        _ = h.namedEdges.map h.places := (hh.map_places_names hh.within).symm
        _ = g.namedEdges.map h.places := by rw [e]
    exact Prod.mk.inj (List.map_inj_left.mp hplaces (a, b) hedge)
  · intro hplaces
    unfold namedEdges
    rw [← hedges]
    apply List.map_congr_left
    intro e he
    obtain ⟨hi, hj⟩ := hg.within e he
    have hplace := hplaces _ _ (edge_iff.mpr ⟨e.1, e.2, he, rfl, rfl⟩)
    rw [hg.idxOf_nameOf hi, hg.idxOf_nameOf hj] at hplace
    -- the vertex in the place of an end is this end
    have hname : ∀ i < g.vertices.length, i = h.vertices.idxOf (g.nameOf i) →
        g.nameOf i = h.nameOf i := by
      intro i hi e
      have hnamed := nameOf_idxOf ((hsame _).mp (nameOf_mem hi))
      rwa [← e, eq_comm] at hnamed
    rw [hname _ hi hplace.1, hname _ hj hplace.2]

/-! ## Looking at graphs that were drawn -/

/-- Whatever is asked of the edges of graphs with the same named edges has the same answer. -/
theorem looks_eq (hg : g.WellDrawn) (hh : h.WellDrawn) (e : g.namedEdges = h.namedEdges)
    (v : String) :
    g.successors v = h.successors v ∧ g.predecessors v = h.predecessors v ∧
      ∀ w, g.leadsTo v w = h.leadsTo v w := by
  have hedge : g.Edge = h.Edge := by
    unfold Edge
    rw [e]
  refine ⟨?_, ?_, fun w => ?_⟩
  · rw [hg.successors_eq, hh.successors_eq, e]
  · rw [hg.predecessors_eq, hh.predecessors_eq, e]
  · rw [Bool.eq_iff_iff, hg.leadsTo_iff, hh.leadsTo_iff, hedge]

/-- Of two graphs that were drawn:
- they agree if they have the same vertices, and the edges of the second are those of the first
  with each vertex replaced by the one in the same place;
- if they agree, they have the same edges by names just if the ends of each edge have the same
  places in both;
- if they have the same edges by names, every vertex has the same successors and predecessors in
  both, and leads to the same vertices. -/
theorem agreeing_graphs_have_the_same_edges_iff (strokes strokes' : List Stroke) :
    let g := drawn strokes
    let h := drawn strokes'
    (g.agrees h = true ↔ g.SameVertices h ∧
      h.namedEdges = g.namedEdges.map fun e => (g.counterpart h e.1, g.counterpart h e.2)) ∧
    (g.agrees h = true → (g.namedEdges = h.namedEdges ↔ ∀ a b, g.Edge a b →
      g.vertices.idxOf a = h.vertices.idxOf a ∧ g.vertices.idxOf b = h.vertices.idxOf b)) ∧
    (g.namedEdges = h.namedEdges → ∀ v,
      g.successors v = h.successors v ∧ g.predecessors v = h.predecessors v ∧
        ∀ w, g.leadsTo v w = h.leadsTo v w) := by
  intro g h
  have hg : g.WellDrawn := wellDrawn_drawn strokes
  have hh : h.WellDrawn := wellDrawn_drawn strokes'
  exact ⟨agrees_iff_counterparts hg hh, namedEdges_eq_iff hg hh, looks_eq hg hh⟩

/-- Two graphs with an edge from `a` to `b`, and two other vertices drawn in different orders: they
agree, and have the same edge. -/
theorem other_vertices_may_change_places :
    let g := drawn [.edge "a" "b", .vertex "c", .vertex "d"]
    let h := drawn [.vertex "a", .vertex "b", .vertex "d", .edge "a" "b", .vertex "c"]
    g.agrees h = true ∧ g.vertices ≠ h.vertices ∧ g.namedEdges = h.namedEdges ∧
      ∀ v, g.successors v = h.successors v := by
  intro g h
  obtain ⟨-, hiff, hlooks⟩ := agreeing_graphs_have_the_same_edges_iff
    [.edge "a" "b", .vertex "c", .vertex "d"]
    [.vertex "a", .vertex "b", .vertex "d", .edge "a" "b", .vertex "c"]
  have hagree : g.agrees h = true := by decide
  have hedges : g.namedEdges = [("a", "b")] := by decide
  have hsame : g.namedEdges = h.namedEdges := by
    refine (hiff hagree).mpr ?_
    intro a b hedge
    have hmem : (a, b) ∈ [("a", "b")] := hedges ▸ hedge
    obtain ⟨rfl, rfl⟩ := Prod.mk.inj (List.mem_singleton.mp hmem)
    decide
  exact ⟨hagree, by decide, hsame, fun v => (hlooks hsame v).1⟩

/-- An edge and the edge the other way round agree, although they lead to different vertices. -/
theorem a_turned_edge_agrees :
    let g := drawn [.edge "a" "b"]
    let h := drawn [.edge "b" "a"]
    g.agrees h = true ∧ g.namedEdges = [("a", "b")] ∧ h.namedEdges = [("b", "a")] ∧
      g.successors "a" = ["b"] ∧ h.successors "a" = [] ∧
      g.predecessors "a" = [] ∧ h.predecessors "a" = ["b"] ∧
      g.leadsTo "a" "b" = true ∧ h.leadsTo "a" "b" = false := by
  decide

end Pddl.Digraph
