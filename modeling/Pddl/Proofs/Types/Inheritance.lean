/-
  Pddl.Proofs.Types.Inheritance — the edges of a hierarchy, and the way up from each type.

  A hierarchy is drawn in three folds: over the groups of a declaration, over the names of a
  group, and over the types that were declared with none. `Draws.foldl` says which edges a fold
  adds if it is known of one step, so that the edges of the whole are known as a list:
  - `namedEdges_ofText`: first the declared pairs, those of the root left out, and then a pair
    with the root for each top;
  - `exists_edge_up`: so every type but the root has an edge to the root, or one to a type that it
    is declared with;
  - `reaches_root`: if nothing is declared above itself, going up ends at the root.
-/

import Mathlib.Order.WellFoundedSet
import Pddl.Hierarchy
import Pddl.Proofs.Types.Drawing

namespace Pddl

open Relation (TransGen)

def TypedList.Declares (declaration : List Char) (child parent : String) : Prop :=
  ∃ group ∈ groups declaration, child ∈ group.names ∧ group.type? = some parent

namespace Hierarchy

open Pddl.Digraph (Draws)

variable {root v w : String} {declaration : List Char}

/-- The pair that declaring a name draws: none for the root, and none without a type. -/
def pairs (root : String) (type? : Option String) (name : String) : List (String × String) :=
  if name = root then [] else type?.toList.map fun type => (name, type)

theorem draws_declare (root : String) (type? : Option String) :
    Draws (declare root type?) (pairs root type?) := by
  intro g name hg
  unfold declare pairs
  by_cases hroot : name = root
  · rw [if_pos hroot, if_pos hroot, List.append_nil]
    exact ⟨hg.addVertex name, hg.namedEdges_addVertex name⟩
  · rw [if_neg hroot, if_neg hroot]
    cases type? with
    | none => exact ⟨hg.addVertex name, (hg.namedEdges_addVertex name).trans (by simp)⟩
    | some type => exact ⟨hg.addEdge name type, hg.namedEdges_addEdge name type⟩

theorem draws_declareGroup (root : String) :
    Draws (declareGroup root) fun group => group.names.flatMap (pairs root group.type?) := by
  intro g group hg
  exact (draws_declare root group.type?).foldl hg group.names

theorem draws_top (root : String) : Draws (fun g v => g.addEdge v root) fun v => [(v, root)] := by
  intro g v hg
  exact ⟨hg.addEdge v root, hg.namedEdges_addEdge v root⟩

/-- The graph of a declaration before the tops are joined to the root. -/
def declared (root : String) (declaration : List Char) : Digraph :=
  (TypedList.groups declaration).foldl (declareGroup root) Digraph.empty

def declaredPairs (root : String) (declaration : List Char) : List (String × String) :=
  (TypedList.groups declaration).flatMap fun group => group.names.flatMap (pairs root group.type?)

theorem wellDrawn_declared (root : String) (declaration : List Char) :
    (declared root declaration).WellDrawn :=
  ((draws_declareGroup root).foldl Digraph.wellDrawn_empty _).1

theorem namedEdges_declared (root : String) (declaration : List Char) :
    (declared root declaration).namedEdges = declaredPairs root declaration :=
  ((draws_declareGroup root).foldl Digraph.wellDrawn_empty _).2

theorem wellDrawn_ofText (root : String) (declaration : List Char) :
    (ofText root declaration).WellDrawn :=
  ((draws_top root).foldl (wellDrawn_declared root declaration) _).1

/-- The edges of a hierarchy: the declared pairs, and then the tops with the root. -/
theorem namedEdges_ofText (root : String) (declaration : List Char) :
    (ofText root declaration).namedEdges =
      declaredPairs root declaration ++
        (tops root (declared root declaration)).flatMap fun v => [(v, root)] := by
  rw [← namedEdges_declared]
  exact ((draws_top root).foldl (wellDrawn_declared root declaration) _).2

theorem declares_of_mem_declaredPairs (h : (v, w) ∈ declaredPairs root declaration) :
    TypedList.Declares declaration v w := by
  obtain ⟨group, hgroup, hnames⟩ := List.mem_flatMap.mp h
  obtain ⟨name, hname, hpair⟩ := List.mem_flatMap.mp hnames
  unfold pairs at hpair
  split at hpair
  · cases hpair
  · obtain ⟨type, htype, e⟩ := List.mem_map.mp hpair
    cases e
    exact ⟨group, hgroup, hname, Option.mem_toList.mp htype⟩

/-! ## Going up -/

/-- Joining vertices to the root adds no vertices but these and the root. -/
theorem mem_foldl_addEdge {vs : List String} {g : Digraph}
    (h : w ∈ (vs.foldl (fun g v => g.addEdge v root) g).vertices) :
    w ∈ g.vertices ∨ w ∈ vs ∨ w = root := by
  induction vs generalizing g with
  | nil => exact .inl h
  | cons v vs ih =>
    rcases ih h with hw | hw | hw
    · rcases Digraph.mem_addEdge.mp hw with hw | hw | hw
      · exact .inl hw
      · exact .inr (.inl (by simp [hw]))
      · exact .inr (.inr hw)
    · exact .inr (.inl (List.mem_cons_of_mem v hw))
    · exact .inr (.inr hw)

theorem mem_declared_or_root (h : v ∈ (ofText root declaration).vertices) :
    v ∈ (declared root declaration).vertices ∨ v = root := by
  rcases mem_foldl_addEdge h with hv | hv | hv
  · exact .inl hv
  · exact .inl (List.mem_filter.mp hv).1
  · exact .inr hv

/-- Every type but the root has an edge to the root, or to a type that it is declared with. -/
theorem exists_edge_up (h : v ∈ (ofText root declaration).vertices) (hne : v ≠ root) :
    (ofText root declaration).Edge v root ∨
      ∃ parent, TypedList.Declares declaration v parent ∧
        (ofText root declaration).Edge v parent := by
  have hg := wellDrawn_declared root declaration
  have hv : v ∈ (declared root declaration).vertices := by
    rcases mem_declared_or_root h with hv | hv
    · exact hv
    · exact absurd hv hne
  unfold Digraph.Edge
  rw [namedEdges_ofText]
  cases hs : (declared root declaration).successors v with
  | nil =>
    have htop : v ∈ tops root (declared root declaration) := by
      apply List.mem_filter.mpr
      refine ⟨hv, ?_⟩
      simp [hne, hs]
    apply Or.inl
    apply List.mem_append_right
    exact List.mem_flatMap.mpr ⟨v, htop, List.mem_singleton_self _⟩
  | cons parent rest =>
    have hedge : (declared root declaration).Edge v parent := by
      rw [← hg.mem_successors, hs]
      exact List.mem_cons_self
    unfold Digraph.Edge at hedge
    rw [namedEdges_declared] at hedge
    exact .inr ⟨parent, declares_of_mem_declaredPairs hedge, List.mem_append_left _ hedge⟩

/-- If no type is declared above itself, going up from a type ends at the root. -/
theorem reaches_root (hacyclic : ∀ x, ¬ TransGen (TypedList.Declares declaration) x x)
    (h : v ∈ (ofText root declaration).vertices) :
    v = root ∨ TransGen (ofText root declaration).Edge v root := by
  -- on the types, which are finitely many, "declared above" is well founded
  have : IsStrictOrder String (Function.swap (TransGen (TypedList.Declares declaration))) :=
    { irrefl := hacyclic
      trans := fun _ _ _ hab hbc => hbc.trans hab }
  have hfinite : {x | x ∈ (ofText root declaration).vertices}.Finite := List.finite_toSet _
  have hwf := hfinite.wellFoundedOn
    (r := Function.swap (TransGen (TypedList.Declares declaration)))
  refine hwf.induction (P := fun x => x = root ∨ TransGen (ofText root declaration).Edge x root)
    h ?_
  intro y hy ih
  by_cases hroot : y = root
  · exact .inl hroot
  apply Or.inr
  rcases exists_edge_up hy hroot with hedge | ⟨parent, hdeclared, hedge⟩
  · exact .single hedge
  · have hparent := ((wellDrawn_ofText root declaration).mem_of_edge hedge).2
    rcases ih parent hparent (TransGen.single hdeclared) with rfl | hway
    · exact .single hedge
    · exact .head hedge hway

end Hierarchy

end Pddl
