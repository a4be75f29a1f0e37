/-
  Pddl.Proofs.Syntax.Traversal — what is in a node, by going down with a stack.

  The nodes in a node can be found without recursion: its children are put on a stack, and as long
  as there is a node on the stack it is taken off, kept if it is looked for, and replaced by its
  own children (`Traversal.Ends`). The stack holds numbers, so that every node is looked up in the
  tree when it is its turn. What is still to come is `awaited`: the nodes on the stack, each with
  all that is in it.
  - `awaited_children`: what is in a node is what is to come when its children are on the stack;
  - `awaited_visit`: taking one node off leaves the rest of what was to come, in the same order;
  - `ends_awaited`: so the stack gets empty, and what is kept is what was to come and looked for;
  - `descendants_are_the_strict_subtree`: the list of the nodes in a node is found in this way,
    goes by their numbers, and has all nodes that the node is around.
-/

import Pddl.Proofs.Syntax.Table

namespace Pddl

/-- A traversal under way: the numbers of the nodes on the stack, the next one first, and the nodes
kept so far. -/
structure Traversal where
  pending : List Nat
  found : List Node

namespace Traversal

variable {t : Tree} {p : Node → Bool} {s : Traversal} {n : Node} {ns out out' : List Node}

def visit (p : Node → Bool) (s : Traversal) (n : Node) : Traversal :=
  ⟨n.children.map (·.id) ++ s.pending, s.found ++ if p n then [n] else []⟩

/-- `Ends t p s out`: the traversal goes on from `s` until its stack is empty, and has then kept
`out`. Every number that comes up is that of a node of the tree. -/
inductive Ends (t : Tree) (p : Node → Bool) : Traversal → List Node → Prop
  | empty {found : List Node} : Ends t p ⟨[], found⟩ found
  | pop {id : Nat} {pending : List Nat} {found out : List Node} {n : Node}
      (here : t.node id = .ok n) (rest : Ends t p (visit p ⟨pending, found⟩ n) out) :
      Ends t p ⟨id :: pending, found⟩ out

theorem Ends.unique (h : Ends t p s out) (h' : Ends t p s out') : out = out' := by
  induction h with
  | empty =>
    cases h'
    rfl
  | pop here _ ih =>
    cases h' with
    | pop here' rest' =>
      cases here.symm.trans here'
      exact ih rest'

/-- The nodes on a stack, each followed by all that is in it. -/
def awaited (ns : List Node) : List Node := ns.flatMap fun n => n :: n.descendants

theorem awaited_cons (n : Node) (ns : List Node) :
    awaited (n :: ns) = n :: (n.descendants ++ awaited ns) := List.flatMap_cons

/-- A terminal holds nothing, and a bracket is followed by what is in it. -/
theorem awaited_forest (f : Forest) (above : List Nat) (id start : Nat) :
    awaited (f.children above id start) = f.nodes above id start := by
  induction f generalizing id start with
  | nil => rfl
  | leaf kind text rest ih =>
    rw [Forest.children, awaited_cons, ih, Node.descendants_eq]
    rfl
  | bracket closed inner rest _ ih =>
    rw [Forest.children, awaited_cons, ih, Node.descendants_eq]
    rfl

theorem awaited_children (n : Node) : awaited n.children = n.descendants := by
  rw [Node.descendants_eq]
  exact awaited_forest _ _ _ _

/-- The children of a node come up first, and then what waited behind it. -/
theorem awaited_visit (n : Node) (ns : List Node) :
    awaited (n :: ns) = n :: awaited (n.children ++ ns) := by
  rw [awaited_cons, ← awaited_children, awaited, awaited, awaited, List.flatMap_append]

theorem node_id (hn : n ∈ t.nodes) : t.node n.id = .ok n := by
  unfold Tree.node
  rw [Tree.nodes_at_id hn]

/-- A stack of nodes of the tree gets empty: what was to come is one shorter with each node that is
taken off. -/
theorem ends_awaited (hns : ∀ n ∈ ns, n ∈ t.nodes) (found : List Node) :
    Ends t p ⟨ns.map (·.id), found⟩ (found ++ (awaited ns).filter p) := by
  generalize hlength : (awaited ns).length = k
  induction k generalizing ns found with
  | zero =>
    cases ns with
    | nil =>
      rw [awaited, List.flatMap_nil, List.filter_nil, List.append_nil]
      exact .empty
    | cons n ns => cases hlength
  | succ k ih =>
    cases ns with
    | nil => cases hlength
    | cons n ns =>
      obtain ⟨hn, hrest⟩ := List.forall_mem_cons.mp hns
      have hbelow : ∀ m ∈ n.children ++ ns, m ∈ t.nodes := by
        intro m hm
        rcases List.mem_append.mp hm with hm | hm
        · exact Tree.children_subset hn m hm
        · exact hrest m hm
      rw [awaited_visit, List.length_cons] at hlength
      have hends := ih hbelow (found ++ if p n then [n] else []) (Nat.succ.inj hlength)
      rw [List.map_append, List.append_assoc] at hends
      have hkept : (awaited (n :: ns)).filter p =
          (if p n then [n] else []) ++ (awaited (n.children ++ ns)).filter p := by
        rw [awaited_visit, List.filter_cons]
        split <;> rfl
      rw [List.map_cons, hkept]
      exact .pop (node_id hn) hends

end Traversal

namespace Tree

/-- What is looked for in a node of a text.
- It is found by going down with a stack that holds the children of the node at first: the stack
  gets empty, whatever is looked for, and every number on it is that of a node.
- It is listed by the numbers of the nodes, and each node once.
- It is all the nodes of the text that are looked for and have the node around them; the node
  itself is none of them. -/
theorem descendants_are_the_strict_subtree (cs : List Char) (n : Node)
    (hn : n ∈ (ofText cs).nodes) (p : Node → Bool) :
    let found := n.descendants.filter p
    (∀ out, Traversal.Ends (ofText cs) p ⟨n.children.map (·.id), []⟩ out ↔ out = found) ∧
    found.Pairwise (·.id < ·.id) ∧
    ∀ m, m ∈ found ↔
      m ∈ (ofText cs).nodes ∧ m ≠ n ∧ n.id ∈ m.ancestors ∧ p m = true := by
  intro found
  have hends : Traversal.Ends (ofText cs) p ⟨n.children.map (·.id), []⟩ found := by
    have h := Traversal.ends_awaited (p := p) (children_subset hn) []
    rwa [List.nil_append, Traversal.awaited_children] at h
  have hids : n.descendants.Pairwise (·.id < ·.id) := by
    rw [← List.pairwise_map, Node.map_id_descendants]
    exact List.pairwise_lt_range'
  refine ⟨fun out => ⟨fun h => h.unique hends, fun h => h ▸ hends⟩, hids.filter p, ?_⟩
  intro m
  rw [List.mem_filter]
  constructor
  · intro ⟨hm, hp⟩
    have hmem := descendants_subset hn hm
    have hlater := ((mem_descendants_iff hn hmem).mp hm).1
    refine ⟨hmem, ?_, (mem_ancestors_iff hn hmem).mpr hm, hp⟩
    rintro rfl
    exact Nat.lt_irrefl _ hlater
  · intro ⟨hmem, _, habove, hp⟩
    exact ⟨(mem_ancestors_iff hn hmem).mp habove, hp⟩

/-- The tokens in a bracket that is left open, one of them a level further down. -/
theorem tokens_are_found_in_turn :
    let cs := "x (a (b) c".toList
    ∃ n ∈ (ofText cs).nodes, n.text = "(a (b) c".toList ∧
      (n.descendants.filter (·.isToken)).map (·.text) = ["a".toList, "b".toList, "c".toList] ∧
      Traversal.Ends (ofText cs) (·.isToken) ⟨n.children.map (·.id), []⟩
        (n.descendants.filter (·.isToken)) ∧
      (∀ m ∈ n.descendants.filter (·.isToken), n.id ∈ m.ancestors) := by
  intro cs
  have hbracket : ∃ n ∈ (ofText cs).nodes, n.text = "(a (b) c".toList ∧
      (n.descendants.filter (·.isToken)).map (·.text) = ["a".toList, "b".toList, "c".toList] := by
    decide +kernel
  obtain ⟨n, hn, htext, hfound⟩ := hbracket
  obtain ⟨hends, -, hinside⟩ := descendants_are_the_strict_subtree cs n hn (·.isToken)
  exact ⟨n, hn, htext, hfound, (hends _).mpr rfl, fun m hm => ((hinside m).mp hm).2.2.1⟩

end Tree

end Pddl
