/-
  Pddl.Proofs.Syntax.Locality — a bracket does not depend on what is around it.

  The text of a bracket, read as a text of its own, gives the bracket again (`ofText_alone`), now
  in a document with nothing else in it. Its nodes are those of the bracket with other numbers and
  other offsets: numbers count from the bracket on, which is number one, and all that is around
  the bracket has become the document, number zero (`renumbered`); offsets count from the start
  of the bracket (`Row.relativeTo`).
  - `rows_relativeTo`: the rows of a forest change so with the number and the offset from which it
    is listed;
  - `bracket_is_local`: so do the rows of a bracket read by itself.
-/

import Pddl.Proofs.Syntax.Fitting

namespace Pddl

/-- The number of a node where the node `base` is number one in a document of its own. -/
def renumbered (base i : Nat) : Nat := if i < base then 0 else i - base + 1

def Row.relativeTo (base offset : Nat) (r : Row) : Row where
  kind := r.kind
  start := r.start - offset
  stop := r.stop - offset
  closed := r.closed
  parent := r.parent.map (renumbered base)
  children := r.children.map (renumbered base)

@[simp] theorem renumbered_add (base i : Nat) : renumbered base (base + i) = i + 1 := by
  simp [renumbered]

theorem renumbered_of_lt {base i : Nat} (h : i < base) : renumbered base i = 0 := if_pos h

namespace Forest

theorem ids_renumbered (f : Forest) (above above' : List Nat) (base id start start' : Nat) :
    ((f.children above (base + id) start).map (·.id)).map (renumbered base) =
      (f.children above' (id + 1) start').map (·.id) := by
  induction f generalizing id start start' with
  | nil => rfl
  | leaf kind text rest ih =>
    simp only [children, List.map_cons, renumbered_add]
    exact congrArg _ (ih (id + 1) _ _)
  | bracket closed inner rest _ ih =>
    have hid : base + id + 1 + inner.size = base + (id + 1 + inner.size) := by omega
    have hnext : id + 1 + 1 + inner.size = id + 1 + inner.size + 1 := by omega
    simp only [children, List.map_cons, renumbered_add, hid, hnext]
    exact congrArg _ (ih (id + 1 + inner.size) _ _)

end Forest

section

variable {base : Nat} {above above' : List Nat}

theorem Node.row_relativeTo (offset id start : Nat) (shape : Shape)
    (h : above.head?.map (renumbered base) = above'.head?) :
    (Node.row ⟨base + id, above, offset + start, shape⟩).relativeTo base offset =
      Node.row ⟨id + 1, above', start, shape⟩ := by
  refine Row.ext rfl ?start ?stop rfl h ?children
  case start => exact Nat.add_sub_cancel_left ..
  case stop =>
    show offset + start + _ - offset = start + _
    rw [Nat.add_assoc, Nat.add_sub_cancel_left]
    rfl
  case children => exact Forest.ids_renumbered _ _ _ base (id + 1) _ _

/-- Listed from another number and another offset, a forest has the same rows with other numbers
and other offsets. -/
theorem Forest.rows_relativeTo (f : Forest) (offset id start : Nat)
    (h : above.head?.map (renumbered base) = above'.head?) :
    (f.nodes above (base + id) (offset + start)).map (fun n => n.row.relativeTo base offset) =
      (f.nodes above' (id + 1) start).map Node.row := by
  induction f generalizing above above' id start with
  | nil => rfl
  | leaf kind text rest ih =>
    rw [nodes, nodes, List.map_cons, List.map_cons, Node.row_relativeTo _ _ _ _ h,
      Nat.add_assoc base, Nat.add_assoc offset, ih _ _ h]
  | bracket closed inner rest ihi ihr =>
    -- inside the bracket, the bracket itself is the nearest node around
    have hinner : ((base + id) :: above).head?.map (renumbered base) =
        ((id + 1) :: above').head? := by simp
    have hid : base + id + 1 + inner.size = base + (id + 1 + inner.size) := by omega
    have hstart : offset + start + 1 + inner.width + (closer closed).length =
        offset + (start + 1 + inner.width + (closer closed).length) := by omega
    have hnext : id + 1 + inner.size + 1 = id + 1 + 1 + inner.size := by omega
    rw [nodes, nodes, List.map_cons, List.map_cons, List.map_append, List.map_append,
      Node.row_relativeTo _ _ _ _ h, hid, hstart, ihr _ _ h, hnext, Nat.add_assoc base,
      Nat.add_assoc offset, ihi _ _ hinner]

end

/-! ## A bracket by itself -/

namespace Tree

variable {cs : List Char} {b m : Node}

theorem nodes_alone (hb : b.isBracket = true) :
    b.alone.nodes b.ancestors b.id b.start = b :: b.descendants := by
  obtain ⟨id, ancestors, start, shape⟩ := b
  cases shape with
  | document | terminal => cases hb
  | bracket closed inner =>
    rw [Node.descendants_eq]
    exact congrArg _ (List.append_nil _)

theorem head_renumbered (hb : b ∈ (ofText cs).nodes) (hbracket : b.isBracket = true) :
    b.ancestors.head?.map (renumbered b.id) = [0].head? := by
  cases habove : b.ancestors with
  | nil =>
    obtain rfl := (node_cases hb).resolve_right fun h => h.1 habove
    cases hbracket
  | cons p around =>
    obtain ⟨q, hq, -, hc, rfl, -⟩ := exists_parent hb habove
    rw [List.head?_cons, Option.map_some, renumbered_of_lt (Node.id_lt_of_mem_children hc)]
    rfl

/-- The rows of a bracket by itself. -/
theorem table_alone (hb : b ∈ (ofText cs).nodes) (hbracket : b.isBracket = true) :
    (ofText b.text).table =
      ⟨.document, 0, Text.byteLength b.text, true, none, [1]⟩ ::
        (b :: b.descendants).map fun n => n.row.relativeTo b.id b.start := by
  have hkind : (b.isDocument || b.isBracket) = true := by rw [hbracket, Bool.or_true]
  have hforest : (ofText b.text).forest = b.alone := ofText_alone hb hkind
  have hrows := b.alone.rows_relativeTo b.start 0 0 (head_renumbered hb hbracket)
  rw [Nat.add_zero, Nat.add_zero, nodes_alone hbracket] at hrows
  have hwidth : b.alone.width = Text.byteLength b.text := by rw [Forest.width_eq, b.text_alone]
  have hchildren : (b.alone.children [0] 1 0).map (·.id) = [1] := by
    obtain ⟨id, ancestors, start, shape⟩ := b
    cases shape with
    | document | terminal => cases hbracket
    | bracket closed inner => rfl
  have hroot : (ofText b.text).root.row =
      ⟨.document, 0, Text.byteLength b.text, true, none, [1]⟩ := by
    rw [root, hforest, ← hwidth, ← hchildren, ← Nat.zero_add b.alone.width]
    rfl
  rw [table, nodes_eq, List.map_cons, hforest, hrows, hroot]

theorem id_at {k : Nat} (h : (b :: b.descendants)[k]? = some m) : m.id = b.id + k := by
  have hids : (b :: b.descendants).map (·.id) = List.range' b.id (b.inner.size + 1) := by
    rw [List.map_cons, Node.map_id_descendants, List.range'_succ]
  have hat : (List.range' b.id (b.inner.size + 1))[k]? = some m.id := by
    rw [← hids, List.getElem?_map, h, Option.map_some]
  obtain ⟨_, hid⟩ := List.getElem?_eq_some_iff.mp hat
  rw [← hid, List.getElem_range', Nat.one_mul]

/-- A bracket is what its text says by itself. Read alone, the text of a bracket is a document with
one child, which is a bracket, and the rows below the document are those of the bracket and of what
is in it, with numbers and offsets that count from the bracket. -/
theorem bracket_is_local (cs : List Char) (b : Node) (hb : b ∈ (ofText cs).nodes)
    (hbracket : b.isBracket = true) :
    (ofText b.text).table[0]? = some ⟨.document, 0, Text.byteLength b.text, true, none, [1]⟩ ∧
    (∃ r, (ofText b.text).table[1]? = some r ∧ r.kind = .bracket ∧ r.parent = some 0) ∧
    (∀ i r, InSubtree (ofText cs).table b.id i → (ofText cs).table[i]? = some r →
      (ofText b.text).table[renumbered b.id i]? = some (r.relativeTo b.id b.start)) ∧
    (∀ j s, (ofText b.text).table[j]? = some s → j ≠ 0 →
      ∃ i r, InSubtree (ofText cs).table b.id i ∧ (ofText cs).table[i]? = some r ∧
        j = renumbered b.id i ∧ s = r.relativeTo b.id b.start) := by
  rw [table_alone hb hbracket]
  refine ⟨rfl, ⟨_, rfl, Node.kind_eq_bracket_iff.mpr hbracket, head_renumbered hb hbracket⟩, ?_, ?_⟩
  · intro i r hsub hr
    obtain ⟨m, hm, rfl, rfl⟩ := exists_node hr
    obtain ⟨k, hk⟩ := List.mem_iff_getElem?.mp ((inSubtree_iff hb hm).mp hsub)
    rw [id_at hk, renumbered_add, List.getElem?_cons_succ, List.getElem?_map, hk, Option.map_some]
  · intro j s hs hj
    obtain ⟨k, rfl⟩ := Nat.exists_eq_succ_of_ne_zero hj
    rw [List.getElem?_cons_succ, List.getElem?_map, Option.map_eq_some_iff] at hs
    obtain ⟨m, hk, rfl⟩ := hs
    have hmem := List.mem_of_getElem? hk
    have hm : m ∈ (ofText cs).nodes := by
      rcases List.mem_cons.mp hmem with rfl | hmem
      · exact hb
      · exact descendants_subset hb hmem
    refine ⟨m.id, m.row, (inSubtree_iff hb hm).mpr hmem, table_at hm, ?_, rfl⟩
    rw [id_at hk, renumbered_add]

/-- The token in a bracket left open inside another, as a node of the whole text and as one of the
bracket's own. -/
theorem a_token_of_an_open_bracket :
    let cs := "(p (a ;)\n".toList
    ∃ b ∈ (ofText cs).nodes, b.isBracket = true ∧ b.id = 4 ∧ b.start = 3 ∧
      InSubtree (ofText cs).table 4 5 ∧
      (ofText cs).table[5]? = some ⟨.terminal .token, 4, 5, true, some 4, []⟩ ∧
      (ofText b.text).table[2]? = some ⟨.terminal .token, 1, 2, true, some 1, []⟩ := by
  intro cs
  obtain ⟨b, hb, hbracket, hid, hstart⟩ : ∃ b ∈ (ofText cs).nodes,
      b.isBracket = true ∧ b.id = 4 ∧ b.start = 3 := by decide +kernel
  have hsub : InSubtree (ofText cs).table 4 5 := by
    refine ⟨[4, 1, 0], .step ?_ (.step ?_ (.step ?_ (.document ?_))), by decide⟩ <;> decide +kernel
  have hrow : (ofText cs).table[5]? = some ⟨.terminal .token, 4, 5, true, some 4, []⟩ := by
    decide +kernel
  have hlocal := (bracket_is_local cs b hb hbracket).2.2.1 5 _ (hid ▸ hsub) hrow
  rw [hid, hstart] at hlocal
  exact ⟨b, hb, hbracket, hid, hstart, hsub, hrow, hlocal⟩

end Tree

end Pddl
