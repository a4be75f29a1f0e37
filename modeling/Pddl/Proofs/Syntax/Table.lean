/-
  Pddl.Proofs.Syntax.Table — the nodes of a tree as a table with links by number.

  Each node is a row: what it is, where it stands, the number of the node around it and the
  numbers of the nodes directly in it (`Row`). The row of a node stands in the table at the number
  of the node. Links go both ways, up to the parent and down to the children, and are found in
  different ways: the parent comes down the forest with the numbers of all nodes around a node,
  the children are listed from what a node holds.
  - `Climb`: going from parent to parent leads to the document;
  - `exists_parent`: every node but the document is a child of the node that it names as its
    parent;
  - `mem_ancestors_iff`, `mem_descendants_iff`: a node is around those that are listed in it, and
    these are numbered one after the other, right behind it;
  - `nodes_apart`: of two nodes the later one is in the earlier one or starts where that stops, or
    behind it;
  - `table_is_arena`: so the table is a tree in which each node comes before all that is in it
    (`Arena`).
-/

import Pddl.Proofs.Syntax.Nodes

namespace Pddl

inductive NodeKind where
  | document
  | bracket
  | terminal (kind : Terminal)
  deriving DecidableEq, Repr

@[ext] structure Row where
  kind : NodeKind
  start : Nat
  stop : Nat
  /-- False only for a bracket whose closing bracket is missing. -/
  closed : Bool
  parent : Option Nat
  children : List Nat
  deriving DecidableEq, Repr

def Node.kind (n : Node) : NodeKind :=
  match n.shape with
  | .document _ => .document
  | .bracket _ _ => .bracket
  | .terminal kind _ => .terminal kind

def Node.row (n : Node) : Row where
  kind := n.kind
  start := n.start
  stop := n.stop
  closed := n.isClosed
  parent := n.parent?
  children := n.children.map (·.id)

/-- The rows of a tree; the row of a node stands at its number. -/
def Tree.table (t : Tree) : List Row := t.nodes.map Node.row

/-! ## Tables that are trees -/

def parentIn (rows : List Row) (i : Nat) : Option Nat := rows[i]?.bind (·.parent)

/-- Going from parent to parent leads from a node through the nodes `around`, the nearest first,
and ends at the document. -/
inductive Climb (rows : List Row) : Nat → List Nat → Prop
  | document : parentIn rows 0 = none → Climb rows 0 []
  | step {i p : Nat} {around : List Nat} :
      parentIn rows i = some p → Climb rows p around → Climb rows i (p :: around)

theorem Climb.unique {rows : List Row} {i : Nat} {a b : List Nat} (ha : Climb rows i a)
    (hb : Climb rows i b) : a = b := by
  induction ha generalizing b with
  | document hnone =>
    cases hb with
    | document => rfl
    | step hsome _ => cases hnone.symm.trans hsome
  | step hsome _ ih =>
    cases hb with
    | document hnone => cases hnone.symm.trans hsome
    | step hsome' hb =>
      cases hsome.symm.trans hsome'
      rw [ih hb]

theorem Climb.lt_length {rows : List Row} {i : Nat} {around : List Nat} (hrows : rows ≠ [])
    (h : Climb rows i around) : i < rows.length := by
  cases h with
  | document => exact List.length_pos_of_ne_nil hrows
  | step hp _ =>
    obtain ⟨r, hr, -⟩ := Option.bind_eq_some_iff.mp hp
    exact (List.getElem?_eq_some_iff.mp hr).1

def InSubtree (rows : List Row) (n i : Nat) : Prop := ∃ around, Climb rows i around ∧ n ∈ i :: around

/-- The rows are a tree, listed with each node before all that is in it. -/
structure Arena (rows : List Row) : Prop where
  nonempty : rows ≠ []
  document_iff : ∀ (i : Nat) (r : Row), rows[i]? = some r → (r.kind = .document ↔ i = 0)
  orphan_iff : ∀ (i : Nat) (r : Row), rows[i]? = some r → (r.parent = none ↔ i = 0)
  /-- The parent comes first, can hold nodes, and has the node once among its children. -/
  parent : ∀ (i : Nat) (r : Row), rows[i]? = some r → i ≠ 0 →
    ∃ (p : Nat) (q : Row), r.parent = some p ∧ p < i ∧ rows[p]? = some q ∧
      (q.kind = .document ∨ q.kind = .bracket) ∧ q.children.count i = 1
  /-- A child has a row, and this row names the node as the parent: no other node has the child. -/
  child : ∀ (p : Nat) (q : Row), rows[p]? = some q → ∀ c ∈ q.children, parentIn rows c = some p
  children_increasing : ∀ (i : Nat) (r : Row), rows[i]? = some r → r.children.Pairwise (· < ·)
  terminal_empty : ∀ (i : Nat) (r : Row) (kind : Terminal), rows[i]? = some r →
    r.kind = .terminal kind → r.children = []
  starts_increasing : ∀ (i j : Nat) (r s : Row), rows[i]? = some r → rows[j]? = some s → 0 < i →
    i < j → r.start < s.start
  /-- A node and all that is in it are the rows from its number on, up to some number. -/
  interval : ∀ n, n < rows.length → ∃ stop, n < stop ∧ stop ≤ rows.length ∧
    ∀ i, InSubtree rows n i ↔ n ≤ i ∧ i < stop
  climb : ∀ i, i < rows.length → ∃ around, Climb rows i around

/-! ## Up and down in a forest -/

namespace Forest

variable {f : Forest} {above : List Nat} {id start : Nat} {n : Node}

theorem kind_ne_document (h : n ∈ f.nodes above id start) : n.kind ≠ .document := by
  induction f generalizing above id start with
  | nil => cases h
  | leaf kind text rest ih =>
    rcases List.mem_cons.mp h with rfl | h
    · exact NodeKind.noConfusion
    · exact ih h
  | bracket closed inner rest ihi ihr =>
    rcases mem_nodes_bracket.mp h with rfl | h | h
    · exact NodeKind.noConfusion
    · exact ihi h
    · exact ihr h

theorem ancestors_of_mem_children (h : n ∈ f.children above id start) : n.ancestors = above := by
  induction f generalizing id start with
  | nil => cases h
  | leaf kind text rest ih =>
    rcases List.mem_cons.mp h with rfl | h
    · rfl
    · exact ih h
  | bracket closed inner rest _ ih =>
    rcases List.mem_cons.mp h with rfl | h
    · rfl
    · exact ih h

/-- The nodes around a forest are around each of its nodes. -/
theorem suffix_ancestors (h : n ∈ f.nodes above id start) : above <:+ n.ancestors := by
  induction f generalizing above id start with
  | nil => cases h
  | leaf kind text rest ih =>
    rcases List.mem_cons.mp h with rfl | h
    · exact List.suffix_refl _
    · exact ih h
  | bracket closed inner rest ihi ihr =>
    rcases mem_nodes_bracket.mp h with rfl | h | h
    · exact List.suffix_refl _
    · exact (List.suffix_cons id above).trans (ihi h)
    · exact ihr h

/-- A node of a forest is directly in it or directly in one of its brackets. -/
theorem mem_children_or_inside (h : n ∈ f.nodes above id start) :
    n ∈ f.children above id start ∨
      ∃ p ∈ f.nodes above id start, p.kind = .bracket ∧ n ∈ p.children := by
  induction f generalizing above id start with
  | nil => cases h
  | leaf kind text rest ih =>
    rcases List.mem_cons.mp h with rfl | h
    · exact .inl List.mem_cons_self
    · rcases ih h with hc | ⟨p, hp, hb, hc⟩
      · exact .inl (List.mem_cons_of_mem _ hc)
      · exact .inr ⟨p, List.mem_cons_of_mem _ hp, hb, hc⟩
  | bracket closed inner rest ihi ihr =>
    rcases mem_nodes_bracket.mp h with rfl | h | h
    · exact .inl List.mem_cons_self
    · rcases ihi h with hc | ⟨p, hp, hb, hc⟩
      · exact .inr ⟨_, List.mem_cons_self, rfl, hc⟩
      · exact .inr ⟨p, mem_nodes_bracket.mpr (.inr (.inl hp)), hb, hc⟩
    · rcases ihr h with hc | ⟨p, hp, hb, hc⟩
      · exact .inl (List.mem_cons_of_mem _ hc)
      · exact .inr ⟨p, mem_nodes_bracket.mpr (.inr (.inr hp)), hb, hc⟩

end Forest

/-! ## Up and down in a tree -/

namespace Node

variable {n c : Node}

theorem ancestors_of_mem_children (h : c ∈ n.children) : c.ancestors = n.id :: n.ancestors :=
  Forest.ancestors_of_mem_children h

theorem mem_descendants_of_mem_children (h : c ∈ n.children) : c ∈ n.descendants := by
  rw [descendants_eq]
  exact (Forest.children_sublist _ _ _ _).subset h

theorem map_id_descendants (n : Node) :
    n.descendants.map (·.id) = List.range' (n.id + 1) n.inner.size := by
  rw [descendants_eq, Forest.map_id_nodes]

theorem id_lt_of_mem_children (h : c ∈ n.children) : n.id < c.id := by
  have hid := List.mem_map_of_mem (f := (·.id)) (mem_descendants_of_mem_children h)
  rw [map_id_descendants, List.mem_range'_1] at hid
  exact hid.1

/-- The children of a node are numbered in the order in which they are listed. -/
theorem children_ids_increasing (n : Node) : (n.children.map (·.id)).Pairwise (· < ·) := by
  have hsub : (n.children.map (·.id)).Sublist (n.descendants.map (·.id)) := by
    rw [descendants_eq]
    exact (Forest.children_sublist _ _ _ _).map _
  rw [map_id_descendants] at hsub
  exact List.Pairwise.sublist hsub List.pairwise_lt_range'

theorem kind_eq_bracket_iff : n.kind = .bracket ↔ n.isBracket = true := by
  obtain ⟨id, ancestors, start, shape⟩ := n
  cases shape with
  | bracket => exact iff_of_true rfl rfl
  | document | terminal => exact iff_of_false NodeKind.noConfusion Bool.noConfusion

theorem children_of_terminal {kind : Terminal} (h : n.kind = .terminal kind) : n.children = [] := by
  obtain ⟨id, ancestors, start, shape⟩ := n
  cases shape with
  | document | bracket => cases h
  | terminal => rfl

end Node

theorem Node.within_of_mem_descendants {m n : Node} (h : m ∈ n.descendants) :
    n.start ≤ m.start ∧ m.stop ≤ n.stop := by
  rw [descendants_eq] at h
  have hwithin := Forest.nodes_within h
  obtain ⟨id, ancestors, start, shape⟩ := n
  cases shape with
  | document inner => exact hwithin
  | terminal kind text => cases h
  | bracket closed inner =>
    have hstart : start + 1 ≤ m.start := hwithin.1
    have hstop : m.stop ≤ start + 1 + inner.width := hwithin.2
    show start ≤ m.start ∧ m.stop ≤ start + (1 + inner.width + (Forest.closer closed).length)
    omega

/-- Of two nodes the later one is in the earlier one or behind it. -/
theorem Forest.nodes_apart (f : Forest) (above : List Nat) (id start : Nat) :
    (f.nodes above id start).Pairwise fun m n => n ∈ m.descendants ∨ m.stop ≤ n.start := by
  induction f generalizing above id start with
  | nil => exact .nil
  | leaf kind text rest ih =>
    refine List.pairwise_cons.mpr ⟨fun n hn => .inr ?_, ih _ _ _⟩
    exact (nodes_within hn).1
  | bracket closed inner rest ihi ihr =>
    refine List.pairwise_cons.mpr
      ⟨fun n hn => ?_, List.pairwise_append.mpr ⟨ihi _ _ _, ihr _ _ _, ?_⟩⟩
    · rcases List.mem_append.mp hn with hn | hn
      · rw [Node.descendants_eq]
        exact .inl hn
      · have := (nodes_within hn).1
        simp only [Node.stop, Node.width]
        exact .inr (by omega)
    · intro m hm n hn
      have := (nodes_within hm).2
      have := (nodes_within hn).1
      exact .inr (by omega)

namespace Tree

variable {t : Tree} {m n : Node}

theorem root_mem (t : Tree) : t.root ∈ t.nodes := List.mem_cons_self

theorem eq_of_id_eq (hm : m ∈ t.nodes) (hn : n ∈ t.nodes) (h : m.id = n.id) : m = n := by
  have hat := nodes_at_id hm
  rw [h, nodes_at_id hn] at hat
  exact (Option.some.inj hat).symm

/-- The document is the one node that has none around it, and number zero. -/
theorem node_cases (hn : n ∈ t.nodes) :
    n = t.root ∨ n.ancestors ≠ [] ∧ n.id ≠ 0 ∧ n.kind ≠ .document := by
  rw [nodes_eq] at hn
  refine (List.mem_cons.mp hn).imp_right fun hn => ⟨?_, ?_, Forest.kind_ne_document hn⟩
  · intro hnil
    have hsuffix := Forest.suffix_ancestors hn
    rw [hnil] at hsuffix
    cases List.suffix_nil.mp hsuffix
  · have hid := List.mem_map_of_mem (f := (·.id)) hn
    rw [Forest.map_id_nodes, List.mem_range'_1] at hid
    omega

/-- A node with others around it is a child of the nearest one. -/
theorem exists_parent {p : Nat} {around : List Nat} (hn : n ∈ t.nodes)
    (h : n.ancestors = p :: around) :
    ∃ q ∈ t.nodes, (q.kind = .document ∨ q.kind = .bracket) ∧ n ∈ q.children ∧ q.id = p ∧
      q.ancestors = around := by
  have hparent : ∃ q ∈ t.nodes, (q.kind = .document ∨ q.kind = .bracket) ∧ n ∈ q.children := by
    rw [nodes_eq] at hn ⊢
    rcases List.mem_cons.mp hn with rfl | hn
    · cases h
    rcases Forest.mem_children_or_inside hn with hc | ⟨q, hq, hb, hc⟩
    · exact ⟨t.root, List.mem_cons_self, .inl rfl, hc⟩
    · exact ⟨q, List.mem_cons_of_mem _ hq, .inr hb, hc⟩
  obtain ⟨q, hq, hkind, hc⟩ := hparent
  have habove := Node.ancestors_of_mem_children hc
  rw [h] at habove
  injection habove with hp hrest
  exact ⟨q, hq, hkind, hc, hp.symm, hrest.symm⟩

theorem descendants_subset (hn : n ∈ t.nodes) (hm : m ∈ n.descendants) : m ∈ t.nodes := by
  rcases List.mem_cons.mp hn with rfl | hn
  · exact List.mem_cons_of_mem _ hm
  · rw [Node.descendants_eq] at hn
    rw [nodes_eq]
    exact List.mem_cons_of_mem _ (Forest.mem_nodes_of_mem_descendants hn hm)

/-- What is in a node is numbered right behind it, without a gap. -/
theorem mem_descendants_iff (hn : n ∈ t.nodes) (hm : m ∈ t.nodes) :
    m ∈ n.descendants ↔ n.id < m.id ∧ m.id ≤ n.id + n.inner.size := by
  have hids : m.id ∈ n.descendants.map (·.id) ↔ n.id < m.id ∧ m.id ≤ n.id + n.inner.size := by
    rw [Node.map_id_descendants, List.mem_range'_1]
    omega
  rw [← hids]
  constructor
  · exact List.mem_map_of_mem
  · intro h
    obtain ⟨m', hm', hid⟩ := List.mem_map.mp h
    rwa [← eq_of_id_eq (descendants_subset hn hm') hm hid]

/-- A node is around the nodes that are listed in it, and around no others. -/
theorem mem_ancestors_iff (hn : n ∈ t.nodes) (hm : m ∈ t.nodes) :
    n.id ∈ m.ancestors ↔ m ∈ n.descendants := by
  constructor
  · -- the induction goes up from `m`: its parent is `n`, or in `n` as well
    generalize haround : m.ancestors = around
    induction around generalizing m with
    | nil =>
      intro h
      cases h
    | cons p around ih =>
      intro h
      obtain ⟨q, hq, -, hc, hqid, hqabove⟩ := exists_parent hm haround
      rcases List.mem_cons.mp h with hp | h
      · rw [eq_of_id_eq hn hq (hp.trans hqid.symm)]
        exact Node.mem_descendants_of_mem_children hc
      · have hqn := ih hq hqabove h
        rw [Node.descendants_eq] at hqn ⊢
        exact Forest.mem_nodes_of_mem_descendants hqn (Node.mem_descendants_of_mem_children hc)
  · intro h
    rw [Node.descendants_eq] at h
    exact (Forest.suffix_ancestors h).subset List.mem_cons_self

theorem stop_le_start (hm : m ∈ t.nodes) (hn : n ∈ t.nodes) (hlt : m.id < n.id)
    (hnot : m.id ∉ n.ancestors) : m.stop ≤ n.start := by
  have hapart : t.nodes.Pairwise fun m n => n ∈ m.descendants ∨ m.stop ≤ n.start := by
    refine List.pairwise_cons.mpr ⟨fun n hn => .inl hn, ?_⟩
    rw [Node.descendants_eq]
    exact Forest.nodes_apart _ _ _ _
  obtain ⟨hi, hmi⟩ := List.getElem?_eq_some_iff.mp (nodes_at_id hm)
  obtain ⟨hj, hnj⟩ := List.getElem?_eq_some_iff.mp (nodes_at_id hn)
  have hpair := List.pairwise_iff_getElem.mp hapart m.id n.id hi hj hlt
  rw [hmi, hnj] at hpair
  exact hpair.resolve_left fun hin => hnot ((mem_ancestors_iff hm hn).mpr hin)

/-! ## The table of a tree -/

theorem table_at (hn : n ∈ t.nodes) : t.table[n.id]? = some n.row := by
  rw [table, List.getElem?_map, nodes_at_id hn, Option.map_some]

/-- The rows of the table are those of the nodes. -/
theorem exists_node {i : Nat} {r : Row} (h : t.table[i]? = some r) :
    ∃ n ∈ t.nodes, n.id = i ∧ n.row = r := by
  rw [table, List.getElem?_map, Option.map_eq_some_iff] at h
  obtain ⟨n, hn, rfl⟩ := h
  have hmem := List.mem_of_getElem? hn
  refine ⟨n, hmem, ?_, rfl⟩
  have hlt : i < t.nodes.length := (List.getElem?_eq_some_iff.mp hn).1
  have hid : (t.nodes.map (·.id))[i]? = some n.id := by rw [List.getElem?_map, hn, Option.map_some]
  have hlen : t.nodes.length = t.size := by
    rw [← List.length_map (f := fun n : Node => n.id), map_id_nodes, List.length_range]
  rw [map_id_nodes, List.getElem?_range (hlen ▸ hlt)] at hid
  exact (Option.some.inj hid).symm

theorem exists_node_of_lt {i : Nat} (h : i < t.table.length) : ∃ n ∈ t.nodes, n.id = i := by
  obtain ⟨n, hn, hid, -⟩ := exists_node (List.getElem?_eq_getElem h)
  exact ⟨n, hn, hid⟩

theorem id_lt_length (hn : n ∈ t.nodes) : n.id < t.table.length :=
  (List.getElem?_eq_some_iff.mp (table_at hn)).1

theorem parentIn_table (hn : n ∈ t.nodes) : parentIn t.table n.id = n.ancestors.head? := by
  rw [parentIn, table_at hn]
  rfl

/-- From a node, the way up leads through the nodes around it. -/
theorem climb_ancestors (hn : n ∈ t.nodes) : Climb t.table n.id n.ancestors := by
  generalize haround : n.ancestors = around
  induction around generalizing n with
  | nil =>
    obtain rfl := (node_cases hn).resolve_right fun h => h.1 haround
    exact .document (parentIn_table t.root_mem)
  | cons p around ih =>
    obtain ⟨q, hq, -, -, rfl, hqabove⟩ := exists_parent hn haround
    refine .step ?_ (ih hq hqabove)
    rw [parentIn_table hn, haround]
    rfl

/-- The subtree of a node, found by going up, is the node and what is listed in it. -/
theorem inSubtree_iff (hn : n ∈ t.nodes) (hm : m ∈ t.nodes) :
    InSubtree t.table n.id m.id ↔ m ∈ n :: n.descendants := by
  have hclimb : InSubtree t.table n.id m.id ↔ n.id ∈ m.id :: m.ancestors := by
    constructor
    · rintro ⟨around, hclimb, hmem⟩
      rwa [hclimb.unique (climb_ancestors hm)] at hmem
    · intro hmem
      exact ⟨_, climb_ancestors hm, hmem⟩
  have hself : n.id = m.id ↔ m = n :=
    ⟨fun h => eq_of_id_eq hm hn h.symm, fun h => congrArg Node.id h.symm⟩
  rw [hclimb, List.mem_cons, List.mem_cons, hself, mem_ancestors_iff hn hm]

theorem inSubtree_iff_id (hn : n ∈ t.nodes) (hm : m ∈ t.nodes) :
    InSubtree t.table n.id m.id ↔ n.id ≤ m.id ∧ m.id < n.id + 1 + n.inner.size := by
  rw [inSubtree_iff hn hm, List.mem_cons, mem_descendants_iff hn hm]
  constructor
  · rintro (rfl | h)
    · omega
    · omega
  · intro h
    by_cases hid : m.id = n.id
    · exact .inl (eq_of_id_eq hm hn hid)
    · exact .inr (by omega)

theorem inSubtree_lt_length {i : Nat} (h : InSubtree t.table n.id i) : i < t.table.length := by
  obtain ⟨around, hclimb, -⟩ := h
  exact hclimb.lt_length (by simp [table, nodes])

/-- The rows of what is in a node are in the table. -/
theorem subtree_le_length (hn : n ∈ t.nodes) : n.id + 1 + n.inner.size ≤ t.table.length := by
  by_cases hsize : n.inner.size = 0
  · have := id_lt_length hn
    omega
  · have hlast : n.id + n.inner.size ∈ n.descendants.map (·.id) := by
      rw [Node.map_id_descendants, List.mem_range'_1]
      omega
    obtain ⟨m, hm, hid⟩ := List.mem_map.mp hlast
    have := id_lt_length (descendants_subset hn hm)
    omega

theorem row_start_lt (cs : List Char) {i j : Nat} {r s : Row} (hr : (ofText cs).table[i]? = some r)
    (hs : (ofText cs).table[j]? = some s) (hi : 0 < i) (hij : i < j) : r.start < s.start := by
  have htable : (ofText cs).table =
      (ofText cs).root.row :: ((ofText cs).forest.nodes [0] 1 0).map Node.row := by
    rw [table, nodes_eq, List.map_cons]
  have hstarts : (((ofText cs).forest.nodes [0] 1 0).map Node.row).Pairwise (·.start < ·.start) :=
    List.pairwise_map.mpr (Forest.starts_increasing (Forest.filled_ofText cs))
  obtain ⟨i, rfl⟩ := Nat.exists_eq_add_of_lt hi
  obtain ⟨j, rfl⟩ := Nat.exists_eq_add_of_lt (Nat.lt_trans hi hij)
  rw [htable, Nat.zero_add, List.getElem?_cons_succ] at hr hs
  obtain ⟨hilt, rfl⟩ := List.getElem?_eq_some_iff.mp hr
  obtain ⟨hjlt, rfl⟩ := List.getElem?_eq_some_iff.mp hs
  exact List.pairwise_iff_getElem.mp hstarts i j hilt hjlt (by omega)

/-- A row other than the document's has its parent in front of it, and is one of its children. -/
theorem row_parent {i : Nat} {r : Row} (hr : t.table[i]? = some r) (hi : i ≠ 0) :
    ∃ (p : Nat) (q : Row), r.parent = some p ∧ p < i ∧ t.table[p]? = some q ∧
      (q.kind = .document ∨ q.kind = .bracket) ∧ q.children.count i = 1 := by
  obtain ⟨n, hn, rfl, rfl⟩ := exists_node hr
  cases habove : n.ancestors with
  | nil =>
    obtain rfl := (node_cases hn).resolve_right fun h => h.1 habove
    exact absurd rfl hi
  | cons p around =>
    obtain ⟨q, hq, hkind, hc, rfl, -⟩ := exists_parent hn habove
    have honce : (q.children.map (·.id)).count n.id = 1 :=
      List.count_eq_one_of_mem (q.children_ids_increasing.imp Nat.ne_of_lt)
        (List.mem_map_of_mem hc)
    refine ⟨q.id, q.row, ?_, Node.id_lt_of_mem_children hc, table_at hq, hkind, honce⟩
    rw [Node.row, Node.parent?, habove, List.head?_cons]

theorem row_child {p c : Nat} {q : Row} (hq : t.table[p]? = some q) (hc : c ∈ q.children) :
    parentIn t.table c = some p := by
  obtain ⟨n, hn, rfl, rfl⟩ := exists_node hq
  obtain ⟨m, hm, rfl⟩ := List.mem_map.mp hc
  rw [parentIn_table (children_subset hn m hm), Node.ancestors_of_mem_children hm, List.head?_cons]

/-- The table of a text is a tree. Its first row is the document, and the only one without a
parent; any other has its parent in front of it, and is once among the children of this one and of
no other. Children are listed in order, terminals have none, and the rows behind the document start
one after the other. What is in a node stands right behind it, without a gap. Going up ends at the
document, through the nodes that a node knows to be around it. -/
theorem table_is_arena (cs : List Char) :
    Arena (ofText cs).table ∧
      ∀ n ∈ (ofText cs).nodes, Climb (ofText cs).table n.id n.ancestors := by
  refine ⟨?_, fun n hn => climb_ancestors hn⟩
  constructor
  case nonempty => simp [table, nodes]
  case document_iff =>
    intro i r hr
    obtain ⟨n, hn, rfl, rfl⟩ := exists_node hr
    rcases node_cases hn with rfl | ⟨-, hid, hkind⟩
    · exact iff_of_true rfl rfl
    · exact iff_of_false hkind hid
  case orphan_iff =>
    intro i r hr
    obtain ⟨n, hn, rfl, rfl⟩ := exists_node hr
    rcases node_cases hn with rfl | ⟨habove, hid, -⟩
    · exact iff_of_true rfl rfl
    · exact iff_of_false (fun hnone => habove (List.head?_eq_none_iff.mp hnone)) hid
  case parent => exact fun i r hr hi => row_parent hr hi
  case child => exact fun p q hq c hc => row_child hq hc
  case children_increasing =>
    intro i r hr
    obtain ⟨n, hn, rfl, rfl⟩ := exists_node hr
    exact n.children_ids_increasing
  case terminal_empty =>
    intro i r kind hr hkind
    obtain ⟨n, hn, rfl, rfl⟩ := exists_node hr
    exact congrArg (List.map (·.id)) (Node.children_of_terminal hkind)
  case starts_increasing => exact fun i j r s hr hs hi hij => row_start_lt cs hr hs hi hij
  case interval =>
    intro i hi
    obtain ⟨n, hn, rfl⟩ := exists_node_of_lt hi
    refine ⟨n.id + 1 + n.inner.size, by omega, subtree_le_length hn, fun j => ⟨fun h => ?_, ?_⟩⟩
    · obtain ⟨m, hm, rfl⟩ := exists_node_of_lt (inSubtree_lt_length h)
      exact (inSubtree_iff_id hn hm).mp h
    · rintro ⟨hle, hlt⟩
      have := subtree_le_length hn
      obtain ⟨m, hm, rfl⟩ := exists_node_of_lt (t := ofText cs) (i := j) (by omega)
      exact (inSubtree_iff_id hn hm).mpr ⟨hle, hlt⟩
  case climb =>
    intro i hi
    obtain ⟨n, hn, rfl⟩ := exists_node_of_lt hi
    exact ⟨_, climb_ancestors hn⟩

end Tree

end Pddl
