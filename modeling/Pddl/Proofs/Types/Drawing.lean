/-
  Pddl.Proofs.Types.Drawing — graphs by the names of their vertices.

  A graph keeps its edges as pairs of indices. In every graph that is drawn from the empty one the
  vertices are distinct and edges join vertices (`WellDrawn`), so that indices and names stand for
  each other (`idxOf?_eq_some_iff`). What drawing does is then said by names alone, and indices
  do not come up again:
  - `mem_addVertex`, `mem_addEdge`: which vertices there are;
  - `namedEdges_addVertex`, `namedEdges_addEdge`: a vertex draws no edge, and an edge is drawn
    behind the others;
  - `successors_eq`, `predecessors_eq`: what lies behind a vertex, and what lies in front of it, is
    read off the named edges.

  `Draws` says of one step of drawing which edges it adds behind those that there are, and
  `Draws.foldl` says it of a fold of such steps; `Uses` and `Uses.foldl` say which names become
  vertices, and in which order. A graph that was built by whatever sequence of the two operations
  is `drawn` from its strokes, and has their names (`vertices_drawn`) and edges
  (`namedEdges_drawn`).
-/

import Mathlib.Data.List.Nodup
import Pddl.Digraph

namespace Pddl.Digraph

variable {g h : Digraph} {a b v w : String} {i j : Nat}

structure WellDrawn (g : Digraph) : Prop where
  distinct : g.vertices.Nodup
  within : ∀ e ∈ g.edges, e.1 < g.vertices.length ∧ e.2 < g.vertices.length

def Edge (g : Digraph) (a b : String) : Prop := (a, b) ∈ g.namedEdges

/-! ## Indices and names -/

theorem nameOf_eq_iff (hi : i < g.vertices.length) :
    g.nameOf i = v ↔ g.vertices[i]? = some v := by
  unfold nameOf
  rw [List.getD_eq_getElem?_getD, List.getElem?_eq_getElem hi]
  simp

theorem nameOf_mem (hi : i < g.vertices.length) : g.nameOf i ∈ g.vertices :=
  List.mem_of_getElem? ((nameOf_eq_iff hi).mp rfl)

theorem nameOf_idxOf (hv : v ∈ g.vertices) : g.nameOf (g.vertices.idxOf v) = v := by
  rw [nameOf_eq_iff (List.idxOf_lt_length_iff.mpr hv)]
  exact List.getElem?_idxOf hv

/-- More vertices behind those that there are leave the names as they are. -/
theorem nameOf_extended (hp : g.vertices <+: h.vertices) (hi : i < g.vertices.length) :
    h.nameOf i = g.nameOf i := by
  obtain ⟨more, hmore⟩ := hp
  have hlt : i < h.vertices.length := by
    rw [← hmore, List.length_append]
    omega
  rw [nameOf_eq_iff hlt, ← hmore, List.getElem?_append_left hi]
  exact (nameOf_eq_iff hi).mp rfl

/-- Different vertices have different names. -/
theorem WellDrawn.nameOf_inj (hg : g.WellDrawn) (hi : i < g.vertices.length)
    (hj : j < g.vertices.length) (e : g.nameOf i = g.nameOf j) : i = j := by
  have hnames := ((nameOf_eq_iff hi).mp e).trans ((nameOf_eq_iff hj).mp rfl).symm
  exact (List.getElem?_inj hi hg.distinct).mp hnames

theorem WellDrawn.idxOf?_eq_some_iff (hg : g.WellDrawn) :
    g.vertices.idxOf? v = some i ↔ i < g.vertices.length ∧ g.nameOf i = v := by
  rw [List.idxOf?_eq_some_iff]
  constructor
  · rintro ⟨hi, hv, -⟩
    refine ⟨hi, ?_⟩
    rw [nameOf_eq_iff hi, List.getElem?_eq_getElem hi, hv]
  · rintro ⟨hi, hv⟩
    have hget : ∀ k (hk : k < g.vertices.length), g.vertices[k] = g.nameOf k := by
      intro k hk
      have := (nameOf_eq_iff hk).mp rfl
      rw [List.getElem?_eq_getElem hk] at this
      exact Option.some.inj this
    refine ⟨hi, (hget i hi).trans hv, ?_⟩
    intro k hk e
    have hk' : k < g.vertices.length := by omega
    rw [hget k hk'] at e
    have := hg.nameOf_inj hk' hi (e.trans hv.symm)
    omega

/-! ## Edges -/

theorem edge_iff : g.Edge a b ↔ ∃ i j, (i, j) ∈ g.edges ∧ g.nameOf i = a ∧ g.nameOf j = b := by
  unfold Edge namedEdges
  rw [List.mem_map]
  constructor
  · rintro ⟨⟨i, j⟩, hmem, e⟩
    exact ⟨i, j, hmem, congrArg Prod.fst e, congrArg Prod.snd e⟩
  · rintro ⟨i, j, hmem, rfl, rfl⟩
    exact ⟨(i, j), hmem, rfl⟩

theorem WellDrawn.mem_of_edge (hg : g.WellDrawn) (he : g.Edge a b) :
    a ∈ g.vertices ∧ b ∈ g.vertices := by
  obtain ⟨i, j, hmem, rfl, rfl⟩ := edge_iff.mp he
  obtain ⟨hi, hj⟩ := hg.within _ hmem
  exact ⟨nameOf_mem hi, nameOf_mem hj⟩

/-- The ends of the edges that leave a vertex are those of the named edges. -/
theorem WellDrawn.successors_eq (hg : g.WellDrawn) (v : String) :
    g.successors v = (g.namedEdges.filter (·.1 == v)).map (·.2) := by
  unfold successors namedEdges
  rw [List.filter_map, List.map_map]
  cases hv : g.vertices.idxOf? v with
  | none =>
    have hnot := List.idxOf?_eq_none_iff.mp hv
    symm
    simp only [List.map_eq_nil_iff, List.filter_eq_nil_iff, Function.comp, beq_iff_eq]
    rintro ⟨i, j⟩ hmem rfl
    exact hnot (nameOf_mem (hg.within _ hmem).1)
  | some i =>
    obtain ⟨hi, rfl⟩ := hg.idxOf?_eq_some_iff.mp hv
    simp only [nextIndices, List.map_map]
    congr 1
    apply List.filter_congr
    rintro ⟨k, j⟩ hmem
    rw [Bool.eq_iff_iff]
    simp only [Function.comp, beq_iff_eq]
    constructor
    · rintro rfl
      rfl
    · intro e
      exact hg.nameOf_inj (hg.within _ hmem).1 hi e

def turned (g : Digraph) : Digraph := { g with edges := g.edges.map Prod.swap }

theorem WellDrawn.turned (hg : g.WellDrawn) : g.turned.WellDrawn := by
  refine ⟨hg.distinct, ?_⟩
  intro e he
  obtain ⟨e', he', rfl⟩ := List.mem_map.mp he
  exact (hg.within e' he').symm

theorem namedEdges_turned (g : Digraph) : g.turned.namedEdges = g.namedEdges.map Prod.swap := by
  simp only [namedEdges, turned, List.map_map]
  rfl

theorem predecessors_eq_turned (g : Digraph) (v : String) :
    g.predecessors v = g.turned.successors v := by
  have hindices : g.previousIndices = g.turned.nextIndices := by
    funext i
    simp only [previousIndices, nextIndices, turned, List.filter_map, List.map_map]
    rfl
  unfold predecessors successors
  rw [hindices]
  rfl

/-- The starts of the edges that enter a vertex are those of the named edges. -/
theorem WellDrawn.predecessors_eq (hg : g.WellDrawn) (v : String) :
    g.predecessors v = (g.namedEdges.filter (·.2 == v)).map (·.1) := by
  rw [predecessors_eq_turned, hg.turned.successors_eq, namedEdges_turned, List.filter_map,
    List.map_map]
  rfl

theorem WellDrawn.mem_successors (hg : g.WellDrawn) : w ∈ g.successors v ↔ g.Edge v w := by
  rw [hg.successors_eq]
  simp [Edge]

/-! ## Drawing a vertex -/

theorem prefix_addVertex (g : Digraph) (v : String) :
    g.vertices <+: (g.addVertex v).vertices := by
  unfold addVertex
  split
  · exact List.prefix_refl _
  · exact List.prefix_append _ _

@[simp] theorem edges_addVertex (g : Digraph) (v : String) : (g.addVertex v).edges = g.edges := by
  unfold addVertex
  split <;> rfl

@[simp] theorem mem_addVertex : w ∈ (g.addVertex v).vertices ↔ w ∈ g.vertices ∨ w = v := by
  unfold addVertex
  split
  · rename_i hv
    constructor
    · exact Or.inl
    · rintro (hw | rfl)
      · exact hw
      · exact hv
  · rw [List.mem_append, List.mem_singleton]

theorem WellDrawn.addVertex (hg : g.WellDrawn) (v : String) : (g.addVertex v).WellDrawn := by
  have hlength := (prefix_addVertex g v).length_le
  constructor
  · unfold Digraph.addVertex
    split
    · exact hg.distinct
    · rename_i hv
      rw [List.nodup_append]
      refine ⟨hg.distinct, List.nodup_singleton v, ?_⟩
      intro a ha b hb e
      rw [e, List.mem_singleton.mp hb] at ha
      exact hv ha
  · intro e he
    rw [edges_addVertex] at he
    have := hg.within e he
    omega

theorem WellDrawn.namedEdges_addVertex (hg : g.WellDrawn) (v : String) :
    (g.addVertex v).namedEdges = g.namedEdges := by
  unfold namedEdges
  rw [edges_addVertex]
  apply List.map_congr_left
  intro e he
  obtain ⟨hi, hj⟩ := hg.within e he
  have hp := prefix_addVertex g v
  rw [nameOf_extended hp hi, nameOf_extended hp hj]

/-! ## Drawing an edge -/

theorem vertices_addEdge (g : Digraph) (a b : String) :
    (g.addEdge a b).vertices = ((g.addVertex a).addVertex b).vertices := rfl

@[simp] theorem mem_addEdge :
    w ∈ (g.addEdge a b).vertices ↔ w ∈ g.vertices ∨ w = a ∨ w = b := by
  rw [vertices_addEdge, mem_addVertex, mem_addVertex, or_assoc]

theorem WellDrawn.addEdge (hg : g.WellDrawn) (a b : String) : (g.addEdge a b).WellDrawn := by
  have hboth := (hg.addVertex a).addVertex b
  refine ⟨hboth.distinct, ?_⟩
  intro e he
  rcases List.mem_append.mp he with he | he
  · exact hboth.within e he
  · rw [List.mem_singleton.mp he]
    exact ⟨List.idxOf_lt_length_iff.mpr (by simp), List.idxOf_lt_length_iff.mpr (by simp)⟩

theorem WellDrawn.namedEdges_addEdge (hg : g.WellDrawn) (a b : String) :
    (g.addEdge a b).namedEdges = g.namedEdges ++ [(a, b)] := by
  have hnames : (g.addEdge a b).nameOf = ((g.addVertex a).addVertex b).nameOf := rfl
  have hedges : (g.addEdge a b).edges = ((g.addVertex a).addVertex b).edges ++
      [(((g.addVertex a).addVertex b).vertices.idxOf a,
        ((g.addVertex a).addVertex b).vertices.idxOf b)] := rfl
  calc (g.addEdge a b).namedEdges
      = ((g.addVertex a).addVertex b).namedEdges ++ [(a, b)] := by
        unfold namedEdges
        rw [hnames, hedges, List.map_append, List.map_singleton, nameOf_idxOf (by simp),
          nameOf_idxOf (by simp)]
    _ = g.namedEdges ++ [(a, b)] := by
        rw [(hg.addVertex a).namedEdges_addVertex, hg.namedEdges_addVertex]

theorem wellDrawn_empty : empty.WellDrawn := by
  refine ⟨List.nodup_nil, ?_⟩
  intro e he
  cases he

/-! ## Drawing step by step -/

section Steps

variable {α : Type} {draw : Digraph → α → Digraph} {edges : α → List (String × String)}

/-- A step of drawing keeps a graph well drawn, and adds some edges behind those of the graph. -/
def Draws (draw : Digraph → α → Digraph) (edges : α → List (String × String)) : Prop :=
  ∀ g x, g.WellDrawn →
    (draw g x).WellDrawn ∧ (draw g x).namedEdges = g.namedEdges ++ edges x

theorem Draws.foldl (h : Draws draw edges) (hg : g.WellDrawn) (xs : List α) :
    (xs.foldl draw g).WellDrawn ∧
      (xs.foldl draw g).namedEdges = g.namedEdges ++ xs.flatMap edges := by
  induction xs generalizing g with
  | nil => exact ⟨hg, (List.append_nil _).symm⟩
  | cons x xs ih =>
    obtain ⟨hx, hedges⟩ := h g x hg
    obtain ⟨hxs, hall⟩ := ih hx
    refine ⟨hxs, ?_⟩
    rw [List.foldl_cons, hall, hedges, List.flatMap_cons, List.append_assoc]

/-- A step of drawing uses some names: those that are new become vertices, in the order in which
they are used. -/
def Uses (draw : Digraph → α → Digraph) (names : α → List String) : Prop :=
  ∀ g x used, g.vertices = used.eraseDups → (draw g x).vertices = (used ++ names x).eraseDups

theorem Uses.foldl {names : α → List String} (h : Uses draw names) {used : List String}
    (hg : g.vertices = used.eraseDups) (xs : List α) :
    (xs.foldl draw g).vertices = (used ++ xs.flatMap names).eraseDups := by
  induction xs generalizing g used with
  | nil => simpa using hg
  | cons x xs ih =>
    rw [List.foldl_cons, ih (h g x used hg), List.flatMap_cons, List.append_assoc]

end Steps

theorem uses_addVertex : Uses addVertex fun v => [v] := by
  intro g v used hg
  have hmem : v ∈ g.vertices ↔ v ∈ used := by rw [hg, List.mem_eraseDups]
  unfold addVertex
  rw [List.eraseDups_append, ← hg]
  by_cases hv : v ∈ used
  · simp [hmem, hv, List.removeAll]
  · simp [hmem, hv, List.removeAll, List.eraseDups_cons]

theorem uses_addEdge :
    Uses (fun g (e : String × String) => g.addEdge e.1 e.2) fun e => [e.1, e.2] := by
  intro g e used hg
  show ((g.addVertex e.1).addVertex e.2).vertices = _
  rw [uses_addVertex _ e.2 _ (uses_addVertex g e.1 used hg), List.append_assoc]
  rfl

inductive Stroke where
  | vertex (v : String)
  | edge (a b : String)
  deriving DecidableEq, Repr

def Stroke.names : Stroke → List String
  | vertex v => [v]
  | edge a b => [a, b]

def Stroke.edges : Stroke → List (String × String)
  | vertex _ => []
  | edge a b => [(a, b)]

def stroke (g : Digraph) : Stroke → Digraph
  | .vertex v => g.addVertex v
  | .edge a b => g.addEdge a b

def drawn (strokes : List Stroke) : Digraph := strokes.foldl stroke empty

theorem draws_stroke : Draws stroke Stroke.edges := by
  intro g x hg
  cases x with
  | vertex v =>
    exact ⟨hg.addVertex v, (hg.namedEdges_addVertex v).trans (List.append_nil _).symm⟩
  | edge a b => exact ⟨hg.addEdge a b, hg.namedEdges_addEdge a b⟩

theorem wellDrawn_drawn (strokes : List Stroke) : (drawn strokes).WellDrawn :=
  (draws_stroke.foldl wellDrawn_empty strokes).1

theorem namedEdges_drawn (strokes : List Stroke) :
    (drawn strokes).namedEdges = strokes.flatMap Stroke.edges :=
  (draws_stroke.foldl wellDrawn_empty strokes).2

theorem uses_stroke : Uses stroke Stroke.names := by
  intro g x used hg
  cases x with
  | vertex v => exact uses_addVertex g v used hg
  | edge a b => exact uses_addEdge g (a, b) used hg

theorem vertices_drawn (strokes : List Stroke) :
    (drawn strokes).vertices = (strokes.flatMap Stroke.names).eraseDups := by
  have hempty : empty.vertices = ([] : List String).eraseDups := rfl
  exact uses_stroke.foldl hempty strokes

end Pddl.Digraph
