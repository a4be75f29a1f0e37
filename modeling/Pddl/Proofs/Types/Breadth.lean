/-
  Pddl.Proofs.Types.Breadth — the search of a graph is breadth first.

  The search looks from the indices in the order in which it found them. `Layered` says what that
  gives after `k` rounds: every index was found at some depth, depths do not decrease along the
  order, none is more than one beyond the depth that is looked from next, and no step from an
  index that was looked from leads more than one deeper. Each round keeps that (`Layered.look`),
  and when all were looked from, no walk to an index is shorter than its depth (`Layered.least`).

  A search with a queue does the same: it pops an index, visits what is next to it, and stops when
  the queue is empty (`Tour.Ends`). In each round the queue is what the search has found but not
  yet looked from, so that the two end alike (`ends_iff`), however the edges run in circles.
  - `search_is_breadth_first`: what is listed from a vertex, and in which order;
  - `leads_to_others`: one vertex leads to another if edges do, but no vertex leads to itself.
-/

import Mathlib.Data.List.Forall2
import Pddl.Proofs.Types.Search

namespace Pddl.Digraph

open Relation (TransGen)

section Indices

variable {next : Nat → List Nat} {order found out : List Nat} {depth : Nat → Nat}
  {origin i j k n : Nat}

/-! ## Depths -/

structure Layered (next : Nat → List Nat) (origin k : Nat) (order : List Nat)
    (depth : Nat → Nat) : Prop where
  start : depth origin = 0
  walked : ∀ i ∈ order, Walk (fun i j => j ∈ next i) origin (depth i) i
  sorted : order.Pairwise fun i j => depth i ≤ depth j
  near : ∀ c, order[k]? = some c → ∀ i ∈ order, depth i ≤ depth c + 1
  looked : ∀ r < k, ∀ i, order[r]? = some i → ∀ j ∈ next i, depth j ≤ depth i + 1

theorem layered_start (next : Nat → List Nat) (origin : Nat) :
    Layered next origin 0 [origin] fun _ => 0 where
  start := rfl
  walked := by
    intro i hi
    rw [List.mem_singleton.mp hi]
    exact .here
  sorted := List.pairwise_singleton _ _
  near := by
    intro c hc i hi
    omega
  looked := by
    intro r hr
    omega

/-- The depths when `c` was looked from: what was not found before is one deeper than `c`. -/
def deepened (order : List Nat) (depth : Nat → Nat) (c i : Nat) : Nat :=
  if i ∈ order then depth i else depth c + 1

theorem deepened_old (depth : Nat → Nat) (c : Nat) (h : i ∈ order) :
    deepened order depth c i = depth i := if_pos h

theorem deepened_new (depth : Nat → Nat) (c : Nat) (h : i ∉ order) :
    deepened order depth c i = depth c + 1 := if_neg h

section Look

variable {c : Nat} {more : List Nat}

theorem Layered.deepened_le (hl : Layered next origin k order depth) (hk : order[k]? = some c)
    (i : Nat) : deepened order depth c i ≤ depth c + 1 := by
  by_cases hi : i ∈ order
  · rw [deepened_old depth c hi]
    exact hl.near c hk i hi
  · exact Nat.le_of_eq (deepened_new depth c hi)

/-- What is new is as deep as anything, and comes last. -/
theorem Layered.sorted_append (hl : Layered next origin k order depth) (hk : order[k]? = some c)
    (hnew : ∀ i ∈ more, i ∉ order) :
    (order ++ more).Pairwise fun i j => deepened order depth c i ≤ deepened order depth c j := by
  rw [List.pairwise_append]
  refine ⟨?_, ?_, ?_⟩
  · apply hl.sorted.imp_of_mem
    intro i j hi hj hle
    rw [deepened_old depth c hi, deepened_old depth c hj]
    exact hle
  · apply List.pairwise_of_forall_mem_list
    intro i _ j hj
    rw [deepened_new depth c (hnew j hj)]
    exact hl.deepened_le hk i
  · intro i _ j hj
    rw [deepened_new depth c (hnew j hj)]
    exact hl.deepened_le hk i

/-- What is looked from next stands behind `c`, and so is not above it. -/
theorem Layered.near_append (hl : Layered next origin k order depth) (hk : order[k]? = some c)
    (hnew : ∀ i ∈ more, i ∉ order) {d : Nat} (hd : (order ++ more)[k + 1]? = some d) (i : Nat) :
    deepened order depth c i ≤ deepened order depth c d + 1 := by
  have hc : (order ++ more)[k]? = some c := by
    rw [List.getElem?_append_left (List.getElem?_eq_some_iff.mp hk).1]
    exact hk
  obtain ⟨hlt, hget⟩ := List.getElem?_eq_some_iff.mp hc
  obtain ⟨hlt', hget'⟩ := List.getElem?_eq_some_iff.mp hd
  have hle := List.pairwise_iff_getElem.mp (hl.sorted_append hk hnew) k (k + 1) hlt hlt'
    (by omega)
  rw [hget, hget', deepened_old depth c (List.mem_of_getElem? hk)] at hle
  have := hl.deepened_le hk i
  omega

end Look

/-- One round keeps the depths of what was found before it. -/
theorem Layered.look (hs : Searched next origin k order) (hl : Layered next origin k order depth) :
    ∃ depth', Layered next origin (k + 1) (look next order k) depth' := by
  cases hk : order[k]? with
  | none =>
    have hlength := List.getElem?_eq_none_iff.mp hk
    rw [look_of_none next hk]
    refine ⟨depth, hl.start, hl.walked, hl.sorted, ?_, ?_⟩
    · intro c hc
      have hlt := (List.getElem?_eq_some_iff.mp hc).1
      omega
    · intro r hr i hi
      have hlt := (List.getElem?_eq_some_iff.mp hi).1
      exact hl.looked r (by omega) i hi
  | some c =>
    have hlt := (List.getElem?_eq_some_iff.mp hk).1
    obtain ⟨more, hmore, hfresh⟩ := exists_discovered hs.distinct (next c)
    have hnew : ∀ i ∈ more, i ∉ order := fun i hi => (hfresh i hi).1
    rw [look_of_some next hk, hmore]
    refine ⟨deepened order depth c, ?_, ?_, hl.sorted_append hk hnew, ?_, ?_⟩
    · rw [deepened_old depth c hs.origin_mem]
      exact hl.start
    · intro i hi
      rcases List.mem_append.mp hi with hi | hi
      · rw [deepened_old depth c hi]
        exact hl.walked i hi
      · rw [deepened_new depth c (hnew i hi)]
        exact .step (hl.walked c (List.mem_of_getElem? hk)) (hfresh i hi).2
    · intro d hd i _
      exact hl.near_append hk hnew hd i
    · intro r hr i hi j hj
      rw [List.getElem?_append_left (by omega)] at hi
      rw [deepened_old depth c (List.mem_of_getElem? hi)]
      by_cases e : r = k
      · rw [e, hk] at hi
        obtain rfl := Option.some.inj hi
        exact hl.deepened_le hk j
      · rw [deepened_old depth c (hs.looked r (by omega) i hi j hj)]
        exact hl.looked r (by omega) i hi j hj

theorem layered_search (next : Nat → List Nat) (k origin : Nat) :
    ∃ depth, Layered next origin k (search next k origin) depth := by
  induction k with
  | zero => exact ⟨_, layered_start next origin⟩
  | succ k ih =>
    obtain ⟨depth, hl⟩ := ih
    rw [search_succ]
    exact hl.look (searched_search next k origin)

/-- When all were looked from, a walk leads to what was found, at most as deep as it is long. -/
theorem Layered.least (hs : Searched next origin k order) (hl : Layered next origin k order depth)
    (hall : order.length ≤ k) (h : Walk (fun i j => j ∈ next i) origin n i) :
    i ∈ order ∧ depth i ≤ n := by
  induction h with
  | here =>
    exact ⟨hs.origin_mem, Nat.le_of_eq hl.start⟩
  | step _ hlast ih =>
    obtain ⟨hmem, hdepth⟩ := ih
    obtain ⟨r, hr, hget⟩ := exists_round hall hmem
    have hle := hl.looked r hr _ hget _ hlast
    exact ⟨hs.looked r hr _ hget _ hlast, by omega⟩

/-- With `n` indices, `n` rounds find them in the order of their distances. -/
theorem exists_depth (hnext : ∀ i j, j ∈ next i → i < n ∧ j < n) (ho : origin < n) :
    ∃ depth : Nat → Nat,
      (∀ i ∈ search next n origin, Shortest (fun i j => j ∈ next i) origin i (depth i)) ∧
        (search next n origin).Pairwise fun i j => depth i ≤ depth j := by
  obtain ⟨depth, hl⟩ := layered_search next n origin
  refine ⟨depth, ?_, hl.sorted⟩
  intro i hi
  refine ⟨hl.walked i hi, ?_⟩
  intro m hwalk
  exact (hl.least (searched_search next n origin) (length_search_le hnext ho) hwalk).2

/-! ## The queue -/

/-- The state of a search with a queue: what was visited, in order, and what is still to be looked
from. -/
structure Tour where
  visited : List Nat
  queue : List Nat

def Tour.visit (t : Tour) (i : Nat) : Tour :=
  if i ∈ t.visited then t else ⟨t.visited ++ [i], t.queue ++ [i]⟩

/-- `Ends next t out`: the search goes on from `t` until its queue is empty, and has then visited
`out`. -/
inductive Tour.Ends (next : Nat → List Nat) : Tour → List Nat → Prop
  | empty {visited : List Nat} : Ends next ⟨visited, []⟩ visited
  | pop {visited queue out : List Nat} {c : Nat}
      (rest : Ends next ((next c).foldl Tour.visit ⟨visited, queue⟩) out) :
      Ends next ⟨visited, c :: queue⟩ out

theorem Tour.Ends.unique {t : Tour} {out out' : List Nat} (h : Tour.Ends next t out)
    (h' : Tour.Ends next t out') : out = out' := by
  induction h with
  | empty =>
    cases h'
    rfl
  | pop _ ih =>
    cases h' with
    | pop rest => exact ih rest

/-- Visiting discovers, and queues what is new. -/
theorem foldl_visit (visited queue found : List Nat) :
    found.foldl Tour.visit ⟨visited, queue⟩ =
      ⟨discover visited found, queue ++ (discover visited found).drop visited.length⟩ := by
  induction found generalizing visited queue with
  | nil => simp [discover]
  | cons i found ih =>
    rw [List.foldl_cons, discover_cons]
    unfold Tour.visit
    by_cases hi : i ∈ visited
    · rw [if_pos hi, if_pos hi]
      exact ih visited queue
    · rw [if_neg hi, if_neg hi]
      refine (ih (visited ++ [i]) (queue ++ [i])).trans ?_
      obtain ⟨more, hmore⟩ := prefix_discover (visited ++ [i]) found
      rw [← hmore]
      simp

/-- Behind `k` rounds the queue holds what was found and not looked from, and the rounds that are
left empty it. -/
theorem ends_search (hall : (search next n origin).length ≤ n) (m : Nat) (h : k + m = n) :
    Tour.Ends next ⟨search next k origin, (search next k origin).drop k⟩
      (search next n origin) := by
  induction m generalizing k with
  | zero =>
    obtain rfl : k = n := by omega
    rw [List.drop_eq_nil_of_le hall]
    exact .empty
  | succ m ih =>
    have hrest := ih (k := k + 1) (by omega)
    rw [search_succ] at hrest
    cases hk : (search next k origin)[k]? with
    | none =>
      have hlength := List.getElem?_eq_none_iff.mp hk
      rw [look_of_none next hk, List.drop_eq_nil_of_le (by omega)] at hrest
      rw [List.drop_eq_nil_of_le hlength]
      exact hrest
    | some c =>
      obtain ⟨hlt, hget⟩ := List.getElem?_eq_some_iff.mp hk
      rw [look_of_some next hk] at hrest
      rw [List.drop_eq_getElem_cons hlt, hget]
      apply Tour.Ends.pop
      rw [foldl_visit]
      -- what is discovered stands behind the queue in both
      obtain ⟨more, hmore⟩ := prefix_discover (search next k origin) (next c)
      rw [← hmore, List.drop_append_of_le_length (by omega)] at hrest
      rw [← hmore, List.drop_left]
      exact hrest

/-- A search with a queue ends, and has visited what the rounds find. -/
theorem ends_iff (hnext : ∀ i j, j ∈ next i → i < n ∧ j < n) (ho : origin < n) :
    Tour.Ends next ⟨[origin], [origin]⟩ out ↔ out = search next n origin := by
  have hends : Tour.Ends next ⟨[origin], [origin]⟩ (search next n origin) :=
    ends_search (k := 0) (length_search_le hnext ho) n (by omega)
  constructor
  · intro h
    exact h.unique hends
  · rintro rfl
    exact hends

end Indices

/-! ## By names -/

section Names

variable {g : Digraph} {next : Nat → List Nat} {v : String} {i j n : Nat}

/-- A list of the names that `edge` leads to from `v`, without `v` itself: each once, and by the
lengths of the shortest ways. -/
structure ListsReached (edge : String → String → Prop) (v : String) (found : List String) :
    Prop where
  distinct : found.Nodup
  members : ∀ w, w ∈ found ↔ w ≠ v ∧ TransGen edge v w
  nearest : ∃ lengths : List Nat,
    List.Forall₂ (Shortest edge v) found lengths ∧ lengths.Pairwise (· ≤ ·)

/-- A search with a queue ends from every vertex, and lists by names what it visits behind the
vertex; from what is no vertex it lists nothing. -/
def ListsVisited (g : Digraph) (next : Nat → List Nat) (v : String) (found : List String) : Prop :=
  match g.vertices.idxOf? v with
  | none => found = []
  | some i => ∃ behind : List Nat, found = behind.map g.nameOf ∧
      ∀ out, Tour.Ends next ⟨[i], [i]⟩ out ↔ out = i :: behind

variable (hg : g.WellDrawn)
  (hnext : ∀ i j, j ∈ next i → i < g.vertices.length ∧ j < g.vertices.length)

include hg hnext

theorem shortest_names (hi : i < g.vertices.length) (hj : j < g.vertices.length)
    (h : Shortest (fun i j => j ∈ next i) i j n) :
    Shortest (g.NextName next) (g.nameOf i) (g.nameOf j) n := by
  refine ⟨h.walk.map fun _ _ => nextName_of_next, ?_⟩
  intro m hwalk
  obtain ⟨l, hl, hway, hname⟩ := walk_of_names hg hnext hi hwalk
  obtain rfl := hg.nameOf_inj hl hj hname
  exact h.least m hway

theorem lengths_reach :
    ∃ lengths : List Nat,
      List.Forall₂ (Shortest (g.NextName next) v) (g.reach next v) lengths ∧
        lengths.Pairwise (· ≤ ·) := by
  unfold reach
  cases hv : g.vertices.idxOf? v with
  | none => exact ⟨[], .nil, .nil⟩
  | some i =>
    obtain ⟨hi, rfl⟩ := hg.idxOf?_eq_some_iff.mp hv
    obtain ⟨depth, hshortest, hsorted⟩ := exists_depth hnext hi
    have hs := searched_search next g.vertices.length i
    refine ⟨((search next g.vertices.length i).drop 1).map depth, ?_, ?_⟩
    · rw [List.forall₂_map_left_iff, List.forall₂_map_right_iff, List.forall₂_same]
      intro j hj
      have hmem := List.mem_of_mem_drop hj
      exact shortest_names hg hnext hi (lt_of_reached hnext hi (hs.reached j hmem))
        (hshortest j hmem)
    · rw [List.pairwise_map]
      exact hsorted.sublist (List.drop_sublist 1 _)

theorem listsReached_reach : ListsReached (g.NextName next) v (g.reach next v) where
  distinct := nodup_reach hg hnext
  members := fun _ => mem_reach hg hnext
  nearest := lengths_reach hg hnext

theorem listsVisited_reach : g.ListsVisited next v (g.reach next v) := by
  unfold ListsVisited reach
  cases hv : g.vertices.idxOf? v with
  | none => rfl
  | some i =>
    obtain ⟨hi, -⟩ := hg.idxOf?_eq_some_iff.mp hv
    obtain ⟨behind, hbehind⟩ := search_begins next g.vertices.length i
    refine ⟨behind, ?_, ?_⟩
    · simp [hbehind]
    · intro out
      rw [ends_iff hnext hi, hbehind]

end Names

/-! ## Of graphs that were drawn -/

/-- From every name, in every graph that was drawn:
- what is reached along the edges is listed, each vertex once and without the vertex itself, by
  the lengths of the shortest ways; so is what is reached against the edges;
- a search with a queue ends, and visits just that in just that order;
- from what is no vertex nothing is listed;
- one vertex is listed from another if the other is listed against the edges from it. -/
theorem search_is_breadth_first (strokes : List Stroke) (v : String) :
    let g := drawn strokes
    ListsReached g.Edge v (g.reachableFrom v) ∧
    ListsReached (Function.swap g.Edge) v (g.reaching v) ∧
    g.ListsVisited g.nextIndices v (g.reachableFrom v) ∧
    g.ListsVisited g.previousIndices v (g.reaching v) ∧
    (v ∉ g.vertices → g.reachableFrom v = [] ∧ g.reaching v = []) ∧
    ∀ w, w ∈ g.reachableFrom v ↔ v ∈ g.reaching w := by
  intro g
  have hg : g.WellDrawn := wellDrawn_drawn strokes
  refine ⟨?_, ?_, listsVisited_reach hg hg.next_within,
    listsVisited_reach hg hg.previous_within, ?_, ?_⟩
  · rw [← nextName_next]
    exact listsReached_reach hg hg.next_within
  · rw [← nextName_previous]
    exact listsReached_reach hg hg.previous_within
  · intro hv
    have hnone := List.idxOf?_eq_none_iff.mpr hv
    unfold reachableFrom reaching reach
    rw [hnone]
    exact ⟨rfl, rfl⟩
  · intro w
    rw [hg.mem_reachableFrom, hg.mem_reaching, ne_comm]

def circle : List Stroke := [.edge "a" "a", .edge "a" "b", .edge "b" "c", .edge "c" "a"]

/-- From a vertex of the circle the two others are listed, and from a name outside it nothing. -/
theorem the_circle_is_searched :
    ListsReached (drawn circle).Edge "a" ["b", "c"] ∧
    ListsReached (Function.swap (drawn circle).Edge) "a" ["c", "b"] ∧
    "d" ∉ (drawn circle).vertices ∧ (drawn circle).reachableFrom "d" = [] := by
  obtain ⟨hfrom, hto, -⟩ := search_is_breadth_first circle "a"
  obtain ⟨-, -, -, -, hnone, -⟩ := search_is_breadth_first circle "d"
  have hd : "d" ∉ (drawn circle).vertices := by decide
  exact ⟨hfrom, hto, hd, (hnone hd).1⟩

/-- One vertex leads to another if one or more edges do; but no vertex leads to itself, whatever
the edges. -/
theorem leads_to_others (strokes : List Stroke) (a b : String) :
    (drawn strokes).leadsTo a b = true ↔ a ≠ b ∧ TransGen (drawn strokes).Edge a b := by
  rw [(wellDrawn_drawn strokes).leadsTo_iff, ne_comm]

/-- An edge from a vertex to itself is a way of one edge, and the vertex does not lead to
itself. -/
theorem a_loop_is_not_found :
    TransGen (drawn [.edge "a" "a"]).Edge "a" "a" ∧
      (drawn [.edge "a" "a"]).leadsTo "a" "a" = false := by
  refine ⟨.single ?_, by decide⟩
  show ("a", "a") ∈ (drawn [.edge "a" "a"]).namedEdges
  decide

end Pddl.Digraph
