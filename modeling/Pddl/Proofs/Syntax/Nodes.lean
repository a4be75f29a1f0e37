/-
  Pddl.Proofs.Syntax.Nodes — the nodes of a tree, their numbers and their places.

  Numbers and offsets are handed down the forest when its nodes are listed; here is what they
  amount to.
  - `map_id_nodes`: the nodes are numbered in the order of the list, so that a number finds its
    node (`Tree.nodes_at_id`);
  - `nodes_within`, `starts_increasing`: a node lies within its forest, and starts after all that
    are listed before it;
  - `text_at`: in the text of the tree, the text of a node stands at the offset of the node;
  - `children_subset`: the nodes directly in a node are nodes of the tree.
-/

import Mathlib.Data.List.Nodup
import Mathlib.Data.List.Range
import Pddl.Tree
import Pddl.Proofs.Syntax.Grammar
import Pddl.Proofs.Text.Slice

namespace Pddl

/-- Of things listed with increasing keys, two with the same key are one. -/
theorem eq_of_increasing {α : Type} {key : α → Nat} {xs : List α}
    (h : xs.Pairwise (key · < key ·)) {x y : α} (hx : x ∈ xs) (hy : y ∈ xs)
    (hkey : key x = key y) : x = y := by
  have hnodup : (xs.map key).Nodup := List.pairwise_map.mpr (h.imp Nat.ne_of_lt)
  exact List.inj_on_of_nodup_map hnodup hx hy hkey

/-! ## No piece is empty -/

theorem Lexeme.text_ne_nil (cs : List Char) : ∀ piece ∈ lexemes cs, piece.text ≠ [] := by
  fun_induction lexemes cs with
  | case1 => simp
  | case2 cs ih => simpa [text] using ih
  | case3 cs _ ih => simpa [text] using ih
  | case4 cs _ _ ih => simpa [text] using ih
  | case5 c cs _ _ _ _ ih => simpa [text] using ih
  | case6 c cs _ _ _ _ ih => simpa [text] using ih

theorem Lexeme.text_settled (depth : Nat) (piece : Lexeme) :
    (piece.settled depth).text = piece.text := by
  unfold settled
  split
  · rename_i h
    rw [h.1]
    rfl
  · rfl

theorem Lexeme.text_ne_nil_settle {ls : List Lexeme} (h : ∀ piece ∈ ls, piece.text ≠ [])
    (depth : Nat) : ∀ piece ∈ settle depth ls, piece.text ≠ [] := by
  induction ls generalizing depth with
  | nil => simp [settle]
  | cons l ls ih =>
    rw [List.forall_mem_cons] at h
    rw [settle, List.forall_mem_cons, text_settled]
    exact ⟨h.1, ih h.2 _⟩

namespace Forest

def Filled (f : Forest) : Prop := ∀ piece ∈ f.pieces, piece.text ≠ []

theorem Filled.leaf_iff {kind : Terminal} {text : List Char} {rest : Forest} :
    (leaf kind text rest).Filled ↔ text ≠ [] ∧ rest.Filled := by
  simp [Filled, pieces, Lexeme.text]

theorem Filled.bracket_iff {closed : Bool} {inner rest : Forest} :
    (bracket closed inner rest).Filled ↔ inner.Filled ∧ rest.Filled := by
  cases closed <;> simp [Filled, pieces, Lexeme.text, or_imp, forall_and]

theorem filled_ofText (cs : List Char) : (ofText cs).Filled := by
  unfold Filled
  rw [ofText, pieces_ofLexemes]
  exact Lexeme.text_ne_nil_settle (Lexeme.text_ne_nil cs) 0

/-! ## Numbers -/

variable {f : Forest} {above : List Nat} {id start : Nat} {n : Node}

/-- The nodes of a bracket and of what follows: its own, those inside and those behind. -/
theorem mem_nodes_bracket {closed : Bool} {inner rest : Forest} :
    n ∈ (bracket closed inner rest).nodes above id start ↔
      n = ⟨id, above, start, .bracket closed inner⟩ ∨
      n ∈ inner.nodes (id :: above) (id + 1) (start + 1) ∨
      n ∈ rest.nodes above (id + 1 + inner.size)
        (start + 1 + inner.width + (closer closed).length) := by
  rw [nodes, List.mem_cons, List.mem_append]

theorem map_id_nodes (f : Forest) (above : List Nat) (id start : Nat) :
    (f.nodes above id start).map (·.id) = List.range' id f.size := by
  induction f generalizing above id start with
  | nil => rfl
  | leaf kind text rest ih =>
    rw [nodes, List.map_cons, ih, size, Nat.add_comm 1, List.range'_succ]
  | bracket closed inner rest ihi ihr =>
    rw [nodes, List.map_cons, List.map_append, ihi, ihr, size, Nat.add_assoc 1,
      Nat.add_comm 1, List.range'_succ, ← List.range'_append_1]

/-! ## Places -/

/-- A node lies within its forest. -/
theorem nodes_within (h : n ∈ f.nodes above id start) :
    start ≤ n.start ∧ n.stop ≤ start + f.width := by
  induction f generalizing above id start with
  | nil => cases h
  | leaf kind text rest ih =>
    rcases List.mem_cons.mp h with rfl | h
    · simp only [Node.stop, Node.width, width]
      omega
    · have := ih h
      simp only [width]
      omega
  | bracket closed inner rest ihi ihr =>
    rcases mem_nodes_bracket.mp h with rfl | h | h
    · simp only [Node.stop, Node.width, width]
      omega
    · have := ihi h
      simp only [width]
      omega
    · have := ihr h
      simp only [width]
      omega

theorem width_pos_of_mem (hf : f.Filled) (h : n ∈ f.nodes above id start) : 0 < n.width := by
  induction f generalizing above id start with
  | nil => cases h
  | leaf kind text rest ih =>
    obtain ⟨ht, hr⟩ := Filled.leaf_iff.mp hf
    rcases List.mem_cons.mp h with rfl | h
    · exact Text.byteLength_pos ht
    · exact ih hr h
  | bracket closed inner rest ihi ihr =>
    obtain ⟨hi, hr⟩ := Filled.bracket_iff.mp hf
    rcases mem_nodes_bracket.mp h with rfl | h | h
    · simp only [Node.width]
      omega
    · exact ihi hi h
    · exact ihr hr h

/-- Each node starts before all that are listed after it. -/
theorem starts_increasing (hf : f.Filled) :
    (f.nodes above id start).Pairwise (·.start < ·.start) := by
  induction f generalizing above id start with
  | nil => exact .nil
  | leaf kind text rest ih =>
    obtain ⟨ht, hr⟩ := Filled.leaf_iff.mp hf
    refine List.pairwise_cons.mpr ⟨fun m hm => ?_, ih hr⟩
    have := (nodes_within hm).1
    have := Text.byteLength_pos ht
    show start < m.start
    omega
  | bracket closed inner rest ihi ihr =>
    obtain ⟨hi, hr⟩ := Filled.bracket_iff.mp hf
    refine List.pairwise_cons.mpr ⟨fun m hm => ?_, List.pairwise_append.mpr ⟨ihi hi, ihr hr, ?_⟩⟩
    · show start < m.start
      rcases List.mem_append.mp hm with hm | hm
      · have := (nodes_within hm).1
        omega
      · have := (nodes_within hm).1
        omega
    · intro a ha b hb
      have := (nodes_within ha).2
      have := (nodes_within hb).1
      have := width_pos_of_mem hi ha
      unfold Node.stop at *
      omega

/-- The text of a node stands at the offset of the node. -/
theorem text_at {cs a b : List Char} (hcs : cs = a ++ f.text ++ b)
    (ha : Text.byteLength a = start) (h : n ∈ f.nodes above id start) :
    ∃ a' b', cs = a' ++ n.text ++ b' ∧ Text.byteLength a' = n.start := by
  induction f generalizing above id start a b with
  | nil => cases h
  | leaf kind text rest ih =>
    rcases List.mem_cons.mp h with rfl | h
    · exact ⟨a, rest.text ++ b, by simp [hcs, Forest.text, Node.text], ha⟩
    · refine ih (a := a ++ text) (b := b) ?_ ?_ h
      · simp [hcs, Forest.text]
      · rw [Text.byteLength_append, ha]
  | bracket closed inner rest ihi ihr =>
    have hopen : Text.byteLength ['('] = 1 := rfl
    have hclose : Text.byteLength (closer closed) = (closer closed).length := by
      cases closed <;> rfl
    rcases mem_nodes_bracket.mp h with rfl | h | h
    · exact ⟨a, rest.text ++ b, by simp [hcs, Forest.text, Node.text], ha⟩
    · refine ihi (a := a ++ ['(']) (b := closer closed ++ rest.text ++ b) ?_ ?_ h
      · simp [hcs, Forest.text]
      · rw [Text.byteLength_append, ha, hopen]
    · refine ihr (a := a ++ ['('] ++ inner.text ++ closer closed) (b := b) ?_ ?_ h
      · simp [hcs, Forest.text]
      · simp only [Text.byteLength_append, hopen, hclose, ← width_eq, ha]

/-! ## Nodes in nodes -/

theorem children_sublist (f : Forest) (above : List Nat) (id start : Nat) :
    (f.children above id start).Sublist (f.nodes above id start) := by
  induction f generalizing above id start with
  | nil => exact .slnil
  | leaf kind text rest ih => exact (ih above _ _).cons_cons _
  | bracket closed inner rest _ ih =>
    exact ((ih above _ _).trans (List.sublist_append_right _ _)).cons_cons _

/-- The nodes in a node of the forest are nodes of the forest. -/
theorem mem_nodes_of_mem_descendants {m : Node} (h : n ∈ f.nodes above id start)
    (hm : m ∈ n.descendants) : m ∈ f.nodes above id start := by
  induction f generalizing above id start with
  | nil => cases h
  | leaf kind text rest ih =>
    rcases List.mem_cons.mp h with rfl | h
    · rw [Node.descendants_eq] at hm
      cases hm
    · exact List.mem_cons_of_mem _ (ih h)
  | bracket closed inner rest ihi ihr =>
    rcases mem_nodes_bracket.mp h with rfl | h | h
    · rw [Node.descendants_eq] at hm
      exact List.mem_cons_of_mem _ (List.mem_append_left _ hm)
    · exact List.mem_cons_of_mem _ (List.mem_append_left _ (ihi h))
    · exact List.mem_cons_of_mem _ (List.mem_append_right _ (ihr h))

end Forest

/-! ## The nodes of a tree -/

namespace Tree

variable {t : Tree} {n : Node}

theorem nodes_eq (t : Tree) : t.nodes = t.root :: t.forest.nodes [0] 1 0 := by
  rw [nodes, Node.descendants_eq]
  rfl

theorem map_id_nodes (t : Tree) : t.nodes.map (·.id) = List.range t.size := by
  rw [nodes_eq, List.map_cons, Forest.map_id_nodes, List.range_eq_range', size, List.range'_succ]
  rfl

/-- The node with the number of a node is this node. -/
theorem nodes_at_id (h : n ∈ t.nodes) : t.nodes[n.id]? = some n := by
  obtain ⟨i, hi, rfl⟩ := List.mem_iff_getElem.mp h
  have hid : (t.nodes.map (·.id))[i]? = some i := by
    rw [map_id_nodes, List.getElem?_range]
    rw [← List.length_range (n := t.size), ← map_id_nodes, List.length_map]
    exact hi
  rw [List.getElem?_map, List.getElem?_eq_getElem hi, Option.map_some] at hid
  rw [Option.some.inj hid, List.getElem?_eq_getElem hi]

theorem children_subset (h : n ∈ t.nodes) : ∀ c ∈ n.children, c ∈ t.nodes := by
  intro c hc
  have hd : c ∈ n.descendants := by
    rw [Node.descendants_eq]
    exact (Forest.children_sublist _ _ _ _).subset hc
  rcases List.mem_cons.mp h with rfl | h
  · exact List.mem_cons_of_mem _ hd
  · rw [Node.descendants_eq] at h
    rw [nodes_eq]
    exact List.mem_cons_of_mem _ (Forest.mem_nodes_of_mem_descendants h hd)

end Tree

end Pddl
