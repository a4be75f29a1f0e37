/-
  Pddl.Proofs.Types.Search — the search of a graph finds what can be reached.

  The search keeps the indices that it found in one list, and looks in round `k` from the index
  found as number `k`. `Searched` is what holds after `k` rounds: the list has no repetitions and
  begins with the origin, all of it can be reached, and what lies behind its first `k` members is
  in it. Each round keeps that (`Searched.look`). A graph with `n` vertices has at most `n`
  indices to find, so that after `n` rounds nothing is left to look from:
  - `mem_search`: what is found is what can be reached, the origin included;
  - `mem_reach`, `nodup_reach`: the same by names, without the origin and without repetitions;
  - `mem_reachableFrom`, `mem_reaching`: along the edges, and against them.
-/

import Mathlib.Data.List.Perm.Subperm
import Mathlib.Logic.Relation
import Pddl.Proofs.Types.Drawing
import Pddl.Proofs.Types.Walk

namespace Pddl.Digraph

open Relation (ReflTransGen TransGen)

section Indices

variable {next : Nat → List Nat} {order found : List Nat} {origin i j k n : Nat}

theorem discover_cons (order : List Nat) (i : Nat) (found : List Nat) :
    discover order (i :: found) =
      discover (if i ∈ order then order else order ++ [i]) found := rfl

theorem mem_discover : j ∈ discover order found ↔ j ∈ order ∨ j ∈ found := by
  induction found generalizing order with
  | nil => simp [discover]
  | cons i found ih =>
    rw [discover_cons, ih]
    by_cases hi : i ∈ order
    · rw [if_pos hi, List.mem_cons]
      constructor
      · rintro (hj | hj)
        · exact .inl hj
        · exact .inr (.inr hj)
      · rintro (hj | rfl | hj)
        · exact .inl hj
        · exact .inl hi
        · exact .inr hj
    · rw [if_neg hi, List.mem_append, List.mem_singleton, List.mem_cons, or_assoc]

theorem nodup_discover (h : order.Nodup) : (discover order found).Nodup := by
  induction found generalizing order with
  | nil => exact h
  | cons i found ih =>
    rw [discover_cons]
    apply ih
    by_cases hi : i ∈ order
    · rw [if_pos hi]
      exact h
    · rw [if_neg hi, List.nodup_append]
      refine ⟨h, List.nodup_singleton i, ?_⟩
      intro a ha b hb e
      rw [e, List.mem_singleton.mp hb] at ha
      exact hi ha

theorem prefix_discover (order found : List Nat) : order <+: discover order found := by
  induction found generalizing order with
  | nil => exact List.prefix_refl _
  | cons i found ih =>
    rw [discover_cons]
    split
    · exact ih order
    · exact (List.prefix_append order [i]).trans (ih _)

/-- What is appended is new, and was among what was found. -/
theorem exists_discovered (h : order.Nodup) (found : List Nat) :
    ∃ more, discover order found = order ++ more ∧ ∀ i ∈ more, i ∉ order ∧ i ∈ found := by
  obtain ⟨more, hmore⟩ := prefix_discover order found
  have hdistinct : (discover order found).Nodup := nodup_discover h
  rw [← hmore, List.nodup_append] at hdistinct
  refine ⟨more, hmore.symm, ?_⟩
  intro i hi
  have hnew : i ∉ order := by
    intro hold
    exact hdistinct.2.2 i hold i hi rfl
  refine ⟨hnew, ?_⟩
  have hmem : i ∈ discover order found := by
    rw [← hmore]
    exact List.mem_append_right order hi
  rcases mem_discover.mp hmem with hold | hfound
  · exact absurd hold hnew
  · exact hfound

theorem look_of_some (next : Nat → List Nat) (h : order[k]? = some i) :
    look next order k = discover order (next i) := by
  unfold look
  rw [h]

/-- When all were looked from, nothing is found any more. -/
theorem look_of_none (next : Nat → List Nat) (h : order[k]? = none) :
    look next order k = order := by
  unfold look
  rw [h]

structure Searched (next : Nat → List Nat) (origin k : Nat) (order : List Nat) : Prop where
  distinct : order.Nodup
  begins : order.head? = some origin
  reached : ∀ i ∈ order, ReflTransGen (fun i j => j ∈ next i) origin i
  looked : ∀ r < k, ∀ i, order[r]? = some i → ∀ j ∈ next i, j ∈ order

theorem searched_start (next : Nat → List Nat) (origin : Nat) :
    Searched next origin 0 [origin] where
  distinct := List.nodup_singleton origin
  begins := rfl
  reached := by
    intro i hi
    rw [List.mem_singleton.mp hi]
  looked := by
    intro r hr
    omega

theorem Searched.origin_mem (h : Searched next origin k order) : origin ∈ order :=
  List.mem_of_mem_head? (Option.mem_def.mpr h.begins)

/-- With no more members than rounds, every member was looked from. -/
theorem exists_round (hall : order.length ≤ k) (hi : i ∈ order) : ∃ r < k, order[r]? = some i := by
  obtain ⟨r, hr⟩ := List.mem_iff_getElem?.mp hi
  have hlt := (List.getElem?_eq_some_iff.mp hr).1
  exact ⟨r, by omega, hr⟩

/-- One round keeps what holds after the rounds before it. -/
theorem Searched.look (h : Searched next origin k order) :
    Searched next origin (k + 1) (look next order k) := by
  cases hk : order[k]? with
  | none =>
    rw [look_of_none next hk]
    refine ⟨h.distinct, h.begins, h.reached, ?_⟩
    intro r hr i hi
    have hlt := (List.getElem?_eq_some_iff.mp hi).1
    rw [List.getElem?_eq_none_iff] at hk
    exact h.looked r (by omega) i hi
  | some c =>
    rw [look_of_some next hk]
    obtain ⟨hlt, -⟩ := List.getElem?_eq_some_iff.mp hk
    obtain ⟨more, hmore⟩ := prefix_discover order (next c)
    -- the members up to number `k` are where they were
    have hold : ∀ r ≤ k, (discover order (next c))[r]? = order[r]? := by
      intro r hr
      rw [← hmore, List.getElem?_append_left (by omega)]
    refine ⟨nodup_discover h.distinct, ?_, ?_, ?_⟩
    · rw [List.head?_eq_getElem?, hold 0 (by omega), ← List.head?_eq_getElem?]
      exact h.begins
    · intro i hi
      rcases mem_discover.mp hi with hi | hi
      · exact h.reached i hi
      · exact (h.reached c (List.mem_of_getElem? hk)).tail hi
    · intro r hr i hi j hj
      rw [hold r (by omega)] at hi
      apply mem_discover.mpr
      by_cases e : r = k
      · rw [e, hk] at hi
        rw [Option.some.inj hi]
        exact .inr hj
      · exact .inl (h.looked r (by omega) i hi j hj)

theorem search_succ (next : Nat → List Nat) (k origin : Nat) :
    search next (k + 1) origin = look next (search next k origin) k := by
  unfold search
  rw [List.range_succ, List.foldl_append]
  rfl

theorem searched_search (next : Nat → List Nat) (k origin : Nat) :
    Searched next origin k (search next k origin) := by
  induction k with
  | zero => exact searched_start next origin
  | succ k ih =>
    rw [search_succ]
    exact ih.look

theorem search_begins (next : Nat → List Nat) (k origin : Nat) :
    ∃ rest, search next k origin = origin :: rest :=
  List.head?_eq_some_iff.mp (searched_search next k origin).begins

section Within

variable (hnext : ∀ i j, j ∈ next i → i < n ∧ j < n)

include hnext

theorem lt_of_reached (ho : origin < n) (h : ReflTransGen (fun i j => j ∈ next i) origin i) :
    i < n := by
  cases h with
  | refl => exact ho
  | tail _ hlast => exact (hnext _ _ hlast).2

/-- With `n` indices, a list without repetitions has at most `n` of them. -/
theorem length_search_le (ho : origin < n) : (search next k origin).length ≤ n := by
  have hs := searched_search next k origin
  have hsub : search next k origin ⊆ List.range n := by
    intro i hi
    exact List.mem_range.mpr (lt_of_reached hnext ho (hs.reached i hi))
  have hle := (List.subperm_of_subset hs.distinct hsub).length_le
  rwa [List.length_range] at hle

/-- After `n` rounds all that can be reached was found, and nothing else. -/
theorem mem_search (ho : origin < n) :
    i ∈ search next n origin ↔ ReflTransGen (fun i j => j ∈ next i) origin i := by
  have hs := searched_search next n origin
  constructor
  · exact hs.reached i
  · intro h
    induction h with
    | refl => exact hs.origin_mem
    | tail _ hlast ih =>
      obtain ⟨r, hr, hget⟩ := exists_round (length_search_le hnext ho) ih
      exact hs.looked r hr _ hget _ hlast

end Within

end Indices

/-! ## By names -/

section Names

variable {g : Digraph} {next : Nat → List Nat} {v w : String} {i : Nat}

def NextName (g : Digraph) (next : Nat → List Nat) : String → String → Prop :=
  Relation.Map (fun i j => j ∈ next i) g.nameOf g.nameOf

theorem nextName_of_next {j : Nat} (h : j ∈ next i) : g.NextName next (g.nameOf i) (g.nameOf j) :=
  ⟨i, j, h, rfl, rfl⟩

variable (hg : g.WellDrawn)
  (hnext : ∀ i j, j ∈ next i → i < g.vertices.length ∧ j < g.vertices.length)

include hg hnext

/-- A way along names is a way along indices, of the same length. -/
theorem walk_of_names {n : Nat} (hi : i < g.vertices.length)
    (h : Walk (g.NextName next) (g.nameOf i) n w) :
    ∃ j < g.vertices.length, Walk (fun i j => j ∈ next i) i n j ∧ g.nameOf j = w := by
  induction h with
  | here => exact ⟨i, hi, .here, rfl⟩
  | step _ hlast ih =>
    obtain ⟨j, hj, hway, hname⟩ := ih
    obtain ⟨j', l, hl, hname', rfl⟩ := hlast
    obtain rfl : j = j' := hg.nameOf_inj hj (hnext _ _ hl).1 (hname.trans hname'.symm)
    exact ⟨l, (hnext _ _ hl).2, .step hway hl, rfl⟩

/-- What is found from a vertex is what can be reached by one or more steps, the vertex itself
apart. -/
theorem mem_reach : w ∈ g.reach next v ↔ w ≠ v ∧ TransGen (g.NextName next) v w := by
  unfold reach
  cases hv : g.vertices.idxOf? v with
  | none =>
    have hnot := List.idxOf?_eq_none_iff.mp hv
    constructor
    · intro hw
      cases hw
    · rintro ⟨-, hway⟩
      -- the first step leaves a vertex
      obtain ⟨_, ⟨i, j, hij, rfl, -⟩, -⟩ := Relation.TransGen.head'_iff.mp hway
      exact absurd (nameOf_mem (hnext i j hij).1) hnot
  | some i =>
    obtain ⟨hi, rfl⟩ := hg.idxOf?_eq_some_iff.mp hv
    obtain ⟨rest, hrest⟩ := search_begins next g.vertices.length i
    have hd := (searched_search next g.vertices.length i).distinct
    rw [hrest, List.nodup_cons] at hd
    simp only [hrest, List.drop_one, List.tail_cons, List.mem_map]
    constructor
    · rintro ⟨j, hj, rfl⟩
      have hreach : ReflTransGen (fun i j => j ∈ next i) i j := by
        rw [← mem_search hnext hi, hrest]
        exact List.mem_cons_of_mem i hj
      have hne : g.nameOf j ≠ g.nameOf i := by
        intro e
        have := hg.nameOf_inj (lt_of_reached hnext hi hreach) hi e
        rw [this] at hj
        exact hd.1 hj
      refine ⟨hne, ?_⟩
      rcases Relation.reflTransGen_iff_eq_or_transGen.mp
        (hreach.lift g.nameOf fun _ _ => nextName_of_next) with e | hway
      · exact absurd e hne
      · exact hway
    · rintro ⟨hne, hway⟩
      obtain ⟨n, hwalk⟩ := reflTransGen_iff_walk.mp hway.to_reflTransGen
      obtain ⟨j, -, hj, rfl⟩ := walk_of_names hg hnext hi hwalk
      have hj := reflTransGen_iff_walk.mpr ⟨n, hj⟩
      rw [← mem_search hnext hi, hrest] at hj
      rcases List.mem_cons.mp hj with rfl | hj
      · exact absurd rfl hne
      · exact ⟨j, hj, rfl⟩

theorem nodup_reach : (g.reach next v).Nodup := by
  unfold reach
  cases hv : g.vertices.idxOf? v with
  | none => exact List.nodup_nil
  | some i =>
    obtain ⟨hi, -⟩ := hg.idxOf?_eq_some_iff.mp hv
    have hs := searched_search next g.vertices.length i
    simp only
    apply List.Nodup.map_on
    · intro j hj l hl e
      have hwithin : ∀ k ∈ (search next g.vertices.length i).drop 1, k < g.vertices.length := by
        intro k hk
        exact lt_of_reached hnext hi (hs.reached k (List.mem_of_mem_drop hk))
      exact hg.nameOf_inj (hwithin j hj) (hwithin l hl) e
    · exact hs.distinct.sublist (List.drop_sublist 1 _)

end Names

/-! ## Along the edges and against them -/

section Directions

variable {g : Digraph} {v w : String}

theorem mem_nextIndices {i j : Nat} : j ∈ g.nextIndices i ↔ (i, j) ∈ g.edges := by
  simp [nextIndices]

theorem mem_previousIndices {i j : Nat} : j ∈ g.previousIndices i ↔ (j, i) ∈ g.edges := by
  simp [previousIndices]

theorem nextName_next (g : Digraph) : g.NextName g.nextIndices = g.Edge := by
  funext a b
  apply propext
  rw [edge_iff]
  simp only [NextName, Relation.Map, mem_nextIndices]

theorem nextName_previous (g : Digraph) :
    g.NextName g.previousIndices = Function.swap g.Edge := by
  funext a b
  apply propext
  simp only [NextName, Relation.Map, mem_previousIndices, Function.swap, edge_iff]
  constructor
  · rintro ⟨i, j, he, hi, hj⟩
    exact ⟨j, i, he, hj, hi⟩
  · rintro ⟨j, i, he, hj, hi⟩
    exact ⟨i, j, he, hi, hj⟩

theorem WellDrawn.next_within (hg : g.WellDrawn) (i j : Nat) (h : j ∈ g.nextIndices i) :
    i < g.vertices.length ∧ j < g.vertices.length :=
  hg.within _ (mem_nextIndices.mp h)

theorem WellDrawn.previous_within (hg : g.WellDrawn) (i j : Nat) (h : j ∈ g.previousIndices i) :
    i < g.vertices.length ∧ j < g.vertices.length :=
  (hg.within _ (mem_previousIndices.mp h)).symm

/-- What a vertex leads to is what edges lead to from it, the vertex itself apart. -/
theorem WellDrawn.mem_reachableFrom (hg : g.WellDrawn) :
    w ∈ g.reachableFrom v ↔ w ≠ v ∧ TransGen g.Edge v w := by
  unfold reachableFrom
  rw [mem_reach hg hg.next_within, nextName_next]

/-- What leads to a vertex is that from which edges lead to it, the vertex itself apart. -/
theorem WellDrawn.mem_reaching (hg : g.WellDrawn) :
    w ∈ g.reaching v ↔ w ≠ v ∧ TransGen g.Edge w v := by
  unfold reaching
  rw [mem_reach hg hg.previous_within, nextName_previous, Relation.transGen_swap]

theorem WellDrawn.nodup_reaching (hg : g.WellDrawn) (v : String) : (g.reaching v).Nodup :=
  nodup_reach hg hg.previous_within

/-- One vertex leads to another if edges do. -/
theorem WellDrawn.leadsTo_iff (hg : g.WellDrawn) :
    g.leadsTo v w = true ↔ w ≠ v ∧ TransGen g.Edge v w := by
  unfold leadsTo
  rw [List.contains_iff_mem, hg.mem_reachableFrom]

end Directions

end Pddl.Digraph
