/-
  Pddl.Proofs.Types.Tops — the vertices of a hierarchy, and those joined to its root.

  Names are drawn as they are listed, each with its type behind it. The root is drawn without its
  type, so that a type gets into the hierarchy only if it is listed itself, or if a name other
  than the root is declared with it (`mem_used`).
  - `vertices_ofText`: the vertices are the names in the order in which they are first drawn;
  - `filter_isTop`: those joined to the root are those declared with no type;
  - `pairs_then_tops`: so the edges are known as a list;
  - `drawn_iff_listed_or_above_another`: and it is known which types are drawn;
  - `a_type_of_the_root_is_lost`: a type that only the root is declared with is not.
-/

import Pddl.Proofs.Types.Groups
import Pddl.Proofs.Types.Inheritance

namespace Pddl

def TypedList.Lists (declaration : List Char) (name : String) : Prop :=
  ∃ group ∈ groups declaration, name ∈ group.names

namespace Hierarchy

open Pddl.Digraph (Uses)

variable {root v : String} {declaration : List Char}

/-! ## The names that are drawn -/

/-- The names that declaring a name draws: its type comes with it, but not that of the root. -/
def names (root : String) (type? : Option String) (name : String) : List String :=
  if name = root then [name] else name :: type?.toList

def used (root : String) (declaration : List Char) : List String :=
  (TypedList.groups declaration).flatMap fun group => group.names.flatMap (names root group.type?)

theorem uses_declare (root : String) (type? : Option String) :
    Uses (declare root type?) (names root type?) := by
  intro g name before hg
  unfold declare names
  by_cases hroot : name = root
  · rw [if_pos hroot, if_pos hroot]
    exact Digraph.uses_addVertex g name before hg
  · rw [if_neg hroot, if_neg hroot]
    cases type? with
    | none => exact Digraph.uses_addVertex g name before hg
    | some type => exact Digraph.uses_addEdge g (name, type) before hg

theorem uses_declareGroup (root : String) :
    Uses (declareGroup root) fun group => group.names.flatMap (names root group.type?) := by
  intro g group before hg
  exact (uses_declare root group.type?).foldl hg group.names

theorem uses_top (root : String) : Uses (fun g v => g.addEdge v root) fun v => [v, root] := by
  intro g v before hg
  exact Digraph.uses_addEdge g (v, root) before hg

theorem vertices_declared (root : String) (declaration : List Char) :
    (declared root declaration).vertices = (used root declaration).eraseDups := by
  have hempty : Digraph.empty.vertices = ([] : List String).eraseDups := rfl
  exact (uses_declareGroup root).foldl hempty _

/-- The vertices are the names that are drawn, in the order in which they are first drawn. -/
theorem vertices_ofText (root : String) (declaration : List Char) :
    (ofText root declaration).vertices =
      (used root declaration ++
        (tops root (declared root declaration)).flatMap fun v => [v, root]).eraseDups :=
  (uses_top root).foldl (vertices_declared root declaration) _

theorem mem_used :
    v ∈ used root declaration ↔
      TypedList.Lists declaration v ∨ ∃ child, child ≠ root ∧ TypedList.Declares declaration child v := by
  unfold used TypedList.Lists TypedList.Declares names
  simp only [List.mem_flatMap]
  constructor
  · intro h
    obtain ⟨group, hgroup, name, hname, hv⟩ := h
    by_cases hroot : name = root
    · rw [if_pos hroot, List.mem_singleton] at hv
      exact .inl ⟨group, hgroup, hv ▸ hname⟩
    · rw [if_neg hroot, List.mem_cons, Option.mem_toList] at hv
      rcases hv with hv | hv
      · exact .inl ⟨group, hgroup, hv ▸ hname⟩
      · exact .inr ⟨name, hroot, group, hgroup, hname, hv⟩
  · intro h
    rcases h with ⟨group, hgroup, hv⟩ | ⟨child, hne, group, hgroup, hchild, htype⟩
    · refine ⟨group, hgroup, v, hv, ?_⟩
      split <;> simp
    · refine ⟨group, hgroup, child, hchild, ?_⟩
      simp [hne, htype]

/-! ## The tops -/

def isTop (root : String) (declaration : List Char) (v : String) : Bool :=
  v != root && !((declaredPairs root declaration).map (·.1)).contains v

theorem mem_declaredPairs {w : String} :
    (v, w) ∈ declaredPairs root declaration ↔
      v ≠ root ∧ TypedList.Declares declaration v w := by
  unfold declaredPairs TypedList.Declares pairs
  simp only [List.mem_flatMap]
  constructor
  · intro h
    obtain ⟨group, hgroup, name, hname, hpair⟩ := h
    by_cases hroot : name = root
    · simp [hroot] at hpair
    · simp only [hroot, if_false, List.mem_map, Option.mem_toList, Prod.mk.injEq] at hpair
      obtain ⟨type, htype, rfl, rfl⟩ := hpair
      exact ⟨hroot, group, hgroup, hname, htype⟩
  · intro h
    obtain ⟨hne, group, hgroup, hname, htype⟩ := h
    refine ⟨group, hgroup, v, hname, ?_⟩
    simp [hne, htype]

theorem isTop_iff :
    isTop root declaration v = true ↔
      v ≠ root ∧ ∀ parent, ¬ TypedList.Declares declaration v parent := by
  simp only [isTop, Bool.and_eq_true, bne_iff_ne, Bool.not_eq_true', List.contains_eq_mem,
    decide_eq_false_iff_not, List.mem_map, Prod.exists, not_exists, not_and]
  constructor
  · intro ⟨hne, hnot⟩
    exact ⟨hne, fun parent h => hnot v parent (mem_declaredPairs.mpr ⟨hne, h⟩) rfl⟩
  · intro ⟨hne, hnot⟩
    refine ⟨hne, fun child parent h e => ?_⟩
    subst e
    exact hnot parent (mem_declaredPairs.mp h).2

theorem tops_declared (root : String) (declaration : List Char) :
    tops root (declared root declaration) =
      (declared root declaration).vertices.filter (isTop root declaration) := by
  apply List.filter_congr
  intro v _
  have hsuccessors : (declared root declaration).successors v = [] ↔
      ∀ parent, (v, parent) ∉ declaredPairs root declaration := by
    rw [List.eq_nil_iff_forall_not_mem, ← namedEdges_declared]
    simp only [(wellDrawn_declared root declaration).mem_successors, Digraph.Edge]
  rw [Bool.eq_iff_iff, isTop_iff]
  simp only [Bool.and_eq_true, bne_iff_ne, List.isEmpty_iff, hsuccessors, mem_declaredPairs, not_and]
  constructor
  · intro h
    exact ⟨h.1, fun parent => h.2 parent h.1⟩
  · intro h
    exact ⟨h.1, fun parent _ => h.2 parent⟩

theorem mem_tops :
    v ∈ tops root (declared root declaration) ↔
      v ∈ used root declaration ∧ isTop root declaration v = true := by
  rw [tops_declared, List.mem_filter, vertices_declared, List.mem_eraseDups]

/-- The tops are found before the root is joined to them, and there are no others afterwards. -/
theorem filter_isTop (root : String) (declaration : List Char) :
    (ofText root declaration).vertices.filter (isTop root declaration) =
      tops root (declared root declaration) := by
  rw [tops_declared, vertices_ofText, List.eraseDups_append, List.filter_append, vertices_declared]
  have hmore : ∀ v ∈ (((tops root (declared root declaration)).flatMap fun v => [v, root]).removeAll
      (used root declaration)).eraseDups, ¬ isTop root declaration v = true := by
    intro v hv htop
    simp only [List.mem_eraseDups, List.removeAll, List.mem_filter, List.mem_flatMap,
      List.mem_cons, List.not_mem_nil, or_false] at hv
    obtain ⟨⟨top, hmem, hv⟩, hnew⟩ := hv
    rcases hv with rfl | rfl
    · -- a top was drawn before
      simp [(mem_tops.mp hmem).1] at hnew
    · exact (isTop_iff.mp htop).1 rfl
  rw [List.filter_eq_nil_iff.mpr hmore, List.append_nil]

/-! ## The edges -/

/-- The edges of a hierarchy are the declared pairs in the order in which they are declared, with
repetitions and without those of the root, and then one to the root from each top. The tops are all
vertices but the root that are declared with no type, in the order in which the names are first
drawn, and the vertices are in this order as well. So no edge leaves the root, and one leaves every
other type. The groups of the declaration are those that the grammar gives. -/
theorem pairs_then_tops (root : String) (declaration : List Char) :
    let g := ofText root declaration
    let tops := (used root declaration).eraseDups.filter (isTop root declaration)
    (∀ groups, TypedList.Reads (TypedList.wordsOf declaration) groups ↔
      groups = TypedList.groups declaration) ∧
    g.namedEdges = declaredPairs root declaration ++ tops.map (fun v => (v, root)) ∧
    g.vertices.filter (isTop root declaration) = tops ∧
    g.vertices = (used root declaration ++ tops.flatMap fun v => [v, root]).eraseDups ∧
    (∀ v, ¬ g.Edge root v) ∧
    ∀ v ∈ g.vertices, v ≠ root → ∃ w, g.Edge v w := by
  intro g tops
  have htops : Hierarchy.tops root (declared root declaration) = tops := by
    rw [tops_declared, vertices_declared]
  have hedges : g.namedEdges = declaredPairs root declaration ++ tops.map (fun v => (v, root)) := by
    rw [← htops, List.map_eq_flatMap]
    exact namedEdges_ofText root declaration
  refine ⟨fun groups => TypedList.reads_iff, hedges, ?_, ?_, ?_, ?_⟩
  · rw [← htops]
    exact filter_isTop root declaration
  · rw [← htops]
    exact vertices_ofText root declaration
  · intro v hedge
    unfold Digraph.Edge at hedge
    rw [hedges, List.mem_append, mem_declaredPairs, List.mem_map] at hedge
    rcases hedge with ⟨hne, -⟩ | ⟨top, htop, e⟩
    · exact hne rfl
    · cases e
      exact (isTop_iff.mp (List.mem_filter.mp htop).2).1 rfl
  · intro v hv hne
    rcases exists_edge_up hv hne with hedge | ⟨parent, -, hedge⟩
    · exact ⟨root, hedge⟩
    · exact ⟨parent, hedge⟩

-- one type is declared twice, and what the root is declared with is not drawn
example : (ofText "object" "a b - c object - d a - c e".toList).namedEdges =
    [("a", "c"), ("b", "c"), ("a", "c"), ("c", "object"), ("e", "object")] := by decide +kernel

/-! ## The types that are drawn -/

/-- An edge leads from a type other than the root to a type that it is declared with, or from a top
to the root. -/
theorem edge_ofText_iff {w : String} :
    (ofText root declaration).Edge v w ↔
      v ≠ root ∧ TypedList.Declares declaration v w ∨
        w = root ∧ v ∈ used root declaration ∧ isTop root declaration v = true := by
  unfold Digraph.Edge
  rw [namedEdges_ofText, List.mem_append, mem_declaredPairs, List.mem_flatMap, ← mem_tops]
  refine or_congr_right ⟨?_, ?_⟩
  · intro ⟨top, htop, hpair⟩
    obtain ⟨rfl, rfl⟩ := Prod.mk.inj (List.mem_singleton.mp hpair)
    exact ⟨rfl, htop⟩
  · intro ⟨hw, htop⟩
    exact ⟨v, htop, by rw [hw]; exact List.mem_singleton_self _⟩

theorem edge_root_iff :
    (ofText root declaration).Edge v root ↔
      v ≠ root ∧ TypedList.Declares declaration v root ∨
        v ∈ used root declaration ∧ isTop root declaration v = true := by
  rw [edge_ofText_iff]
  simp only [true_and]

theorem mem_vertices_ofText :
    v ∈ (ofText root declaration).vertices ↔
      v ∈ used root declaration ∨
        v = root ∧ ∃ top, top ∈ used root declaration ∧ isTop root declaration top = true := by
  rw [vertices_ofText, List.mem_eraseDups, List.mem_append, List.mem_flatMap]
  simp only [mem_tops, List.mem_cons, List.not_mem_nil, or_false]
  constructor
  · intro h
    rcases h with h | ⟨top, htop, rfl | rfl⟩
    · exact .inl h
    · exact .inl htop.1
    · exact .inr ⟨rfl, top, htop⟩
  · intro h
    rcases h with h | ⟨e, top, htop⟩
    · exact .inl h
    · exact .inr ⟨top, htop, .inr e⟩

/-- Which of the types that a declaration names are drawn, and which are joined to the root:
- a type other than the root is drawn if it is listed, or if a name other than the root is declared
  with it;
- the root is drawn if it is listed, or if an edge leads to it;
- a type other than the root that is declared with no type is joined to the root if it is drawn. -/
theorem drawn_iff_listed_or_above_another (root : String) (declaration : List Char) :
    let g := ofText root declaration
    (∀ groups, TypedList.Reads (TypedList.wordsOf declaration) groups ↔
      groups = TypedList.groups declaration) ∧
    (∀ v, v ≠ root → (v ∈ g.vertices ↔ TypedList.Lists declaration v ∨
      ∃ child, child ≠ root ∧ TypedList.Declares declaration child v)) ∧
    (root ∈ g.vertices ↔ TypedList.Lists declaration root ∨ ∃ child, g.Edge child root) ∧
    ∀ v, v ≠ root → (g.Edge v root ↔ TypedList.Declares declaration v root ∨
      v ∈ g.vertices ∧ ∀ parent, ¬ TypedList.Declares declaration v parent) := by
  intro g
  refine ⟨fun groups => TypedList.reads_iff, ?_, ?_, ?_⟩
  · intro v hne
    rw [mem_vertices_ofText, mem_used]
    simp [hne]
  · rw [mem_vertices_ofText, mem_used]
    simp only [true_and]
    constructor
    · intro h
      rcases h with (h | ⟨child, hchild⟩) | ⟨top, htop⟩
      · exact .inl h
      · exact .inr ⟨child, edge_root_iff.mpr (.inl hchild)⟩
      · exact .inr ⟨top, edge_root_iff.mpr (.inr htop)⟩
    · intro h
      rcases h with h | ⟨child, hedge⟩
      · exact .inl (.inl h)
      · rcases edge_root_iff.mp hedge with hchild | htop
        · exact .inl (.inr ⟨child, hchild⟩)
        · exact .inr ⟨child, htop⟩
  · intro v hne
    rw [edge_root_iff, mem_vertices_ofText, isTop_iff]
    simp [hne]

/-- A type that is named only as the type of the root is neither drawn nor joined to the root,
although it is declared with no type itself. -/
theorem a_type_of_the_root_is_lost :
    let declaration := "object - thing".toList
    TypedList.Declares declaration "object" "thing" ∧
    (∀ parent, ¬ TypedList.Declares declaration "thing" parent) ∧
    "thing" ∉ (ofText "object" declaration).vertices ∧
    ¬ (ofText "object" declaration).Edge "thing" "object" := by
  intro declaration
  have hgroups : TypedList.groups declaration = [⟨["object"], some "thing"⟩] := by decide +kernel
  have hvertices : (ofText "object" declaration).vertices = ["object"] := by decide +kernel
  have hedges : (ofText "object" declaration).namedEdges = [] := by decide +kernel
  unfold TypedList.Declares Digraph.Edge
  rw [hgroups, hvertices, hedges]
  simp

end Hierarchy

end Pddl
