/-
  Pddl.Proofs.Syntax.Tiling — the tree of a text loses nothing of it.

  The children of a document or of a bracket stand one behind the other from the start of its
  inside to the end of it (`Tiles`). The inside of a bracket is what is left without its opening
  bracket, and without its closing one if that was written (`innerStart`, `innerStop`).
  - `tiles_children`: the children in a forest tile its width;
  - `text_at_inner`: the text inside a node stands at the offset where the inside starts;
  - `children_tile`: all of it for the tree of a text, whose nodes can therefore be cut out of the
    text at their offsets.
-/

import Pddl.Proofs.Syntax.Nodes

namespace Pddl

def Tiles : Nat → Nat → List Node → Prop
  | start, stop, [] => start = stop
  | start, stop, n :: ns => n.start = start ∧ Tiles n.stop stop ns

def Node.innerStop (n : Node) : Nat := if n.isBracket && n.isClosed then n.stop - 1 else n.stop

/-! ## Children -/

namespace Forest

theorem tiles_children (f : Forest) (above : List Nat) (id start : Nat) :
    Tiles start (start + f.width) (f.children above id start) := by
  induction f generalizing id start with
  | nil => rfl
  | leaf kind text rest ih =>
    refine ⟨rfl, ?_⟩
    simp only [width, ← Nat.add_assoc]
    exact ih _ _
  | bracket closed inner rest _ ih =>
    refine ⟨rfl, ?_⟩
    simp only [width, Node.stop, Node.width, ← Nat.add_assoc]
    exact ih _ _

theorem flatMap_text_children (f : Forest) (above : List Nat) (id start : Nat) :
    (f.children above id start).flatMap Node.text = f.text := by
  induction f generalizing id start with
  | nil => rfl
  | leaf kind text rest ih => simp [children, Node.text, Forest.text, ih]
  | bracket closed inner rest _ ih => simp [children, Node.text, Forest.text, ih]

/-- A forest without empty terminals takes no room only if there is nothing in it. -/
theorem children_eq_nil_iff {f : Forest} (hf : f.Filled) (above : List Nat) (id start : Nat) :
    f.children above id start = [] ↔ f.width = 0 := by
  cases f with
  | nil => simp [children, width]
  | leaf kind text rest =>
    have := Text.byteLength_pos (Filled.leaf_iff.mp hf).1
    simp only [children, List.cons_ne_nil, width, false_iff]
    omega
  | bracket closed inner rest =>
    simp only [children, List.cons_ne_nil, width, false_iff]
    omega

theorem filled_inner {f : Forest} {above : List Nat} {id start : Nat} {n : Node} (hf : f.Filled)
    (h : n ∈ f.nodes above id start) : n.inner.Filled := by
  induction f generalizing above id start with
  | nil => cases h
  | leaf kind text rest ih =>
    rcases List.mem_cons.mp h with rfl | h
    · intro piece hp
      cases hp
    · exact ih (Filled.leaf_iff.mp hf).2 h
  | bracket closed inner rest ihi ihr =>
    obtain ⟨hi, hr⟩ := Filled.bracket_iff.mp hf
    rcases mem_nodes_bracket.mp h with rfl | h | h
    · exact hi
    · exact ihi hi h
    · exact ihr hr h

end Forest

/-! ## The inside of a node -/

namespace Node

theorem width_eq (n : Node) : n.width = Text.byteLength n.text := by
  obtain ⟨id, ancestors, start, shape⟩ := n
  cases shape with
  | document inner => exact inner.width_eq
  | terminal kind text => rfl
  | bracket closed inner =>
    have hforest := (Forest.bracket closed inner .nil).width_eq
    rw [Forest.text, Forest.text, List.append_nil] at hforest
    exact hforest

/-- The text of a node is that of its inside between its brackets. -/
theorem text_eq (n : Node) :
    ∃ left right, n.text = left ++ n.nestedText ++ right ∧
      n.innerStart = n.start + Text.byteLength left ∧
      n.innerStop + Text.byteLength right = n.stop := by
  obtain ⟨id, ancestors, start, shape⟩ := n
  have hopen : '('.utf8Size = 1 := rfl
  have hclose : ')'.utf8Size = 1 := rfl
  cases shape with
  | document inner => exact ⟨[], [], by simp [Node.text, nestedText], rfl, rfl⟩
  | terminal kind text => exact ⟨[], [], by simp [Node.text, nestedText], rfl, rfl⟩
  | bracket closed inner =>
    refine ⟨['('], Forest.closer closed, rfl, by simp [innerStart, isBracket, hopen], ?_⟩
    cases closed with
    | false => simp [innerStop, isBracket, isClosed, Forest.closer]
    | true =>
      simp only [innerStop, isBracket, isClosed, stop, width, Forest.closer, Text.byteLength_cons,
        Text.byteLength_nil, hclose, Bool.and_self, if_true, List.length_cons, List.length_nil]
      omega

theorem innerStop_eq (n : Node) :
    n.innerStop = n.innerStart + Text.byteLength n.nestedText := by
  obtain ⟨left, right, htext, hstart, hstop⟩ := n.text_eq
  have hwidth := n.width_eq
  rw [htext, Text.byteLength_append, Text.byteLength_append] at hwidth
  unfold stop at hstop
  omega

theorem nestedText_eq {n : Node} (h : (n.isDocument || n.isBracket) = true) :
    n.nestedText = n.inner.text := by
  obtain ⟨id, ancestors, start, shape⟩ := n
  cases shape with
  | document | bracket => rfl
  | terminal => cases h

theorem innerWidth_eq {n : Node} (h : (n.isDocument || n.isBracket) = true) :
    n.innerStop = n.innerStart + n.inner.width := by
  rw [innerStop_eq, nestedText_eq h, Forest.width_eq]

end Node

/-! ## The tree of a text -/

namespace Tree

variable {cs : List Char} {n : Node}

theorem filled_inner_ofText (h : n ∈ (ofText cs).nodes) : n.inner.Filled := by
  rw [nodes_eq] at h
  rcases List.mem_cons.mp h with rfl | h
  · exact Forest.filled_ofText cs
  · exact Forest.filled_inner (Forest.filled_ofText cs) h

theorem start_lt_stop (h : n ∈ (ofText cs).nodes) (hd : n.isDocument = false) :
    n.start < n.stop := by
  rw [nodes_eq] at h
  rcases List.mem_cons.mp h with rfl | h
  · cases hd
  · have := Forest.width_pos_of_mem (Forest.filled_ofText cs) h
    unfold Node.stop
    omega

theorem text_root (cs : List Char) : (ofText cs).root.text = cs := Forest.text_ofText cs

/-- The text of a node stands at the offset of the node. -/
theorem text_at (h : n ∈ (ofText cs).nodes) :
    ∃ a b, cs = a ++ n.text ++ b ∧ Text.byteLength a = n.start := by
  rw [nodes_eq] at h
  rcases List.mem_cons.mp h with rfl | h
  · exact ⟨[], [], by simp [text_root], rfl⟩
  · exact Forest.text_at (a := []) (b := []) (by simp [ofText]) rfl h

/-- The text inside a node stands at the offset where the inside starts. -/
theorem text_at_inner (h : n ∈ (ofText cs).nodes) :
    ∃ a b, cs = a ++ n.nestedText ++ b ∧ Text.byteLength a = n.innerStart := by
  obtain ⟨a, b, hcs, ha⟩ := text_at h
  obtain ⟨left, right, htext, hstart, -⟩ := n.text_eq
  refine ⟨a ++ left, right ++ b, ?_, ?_⟩
  · rw [hcs, htext]
    simp
  · rw [Text.byteLength_append, ha, hstart]

theorem boundaries (h : n ∈ (ofText cs).nodes) :
    Text.Boundary cs n.start ∧ Text.Boundary cs n.stop := by
  obtain ⟨a, b, hcs, ha⟩ := text_at h
  refine ⟨⟨a, n.text ++ b, by rw [hcs, List.append_assoc], ha⟩, ⟨a ++ n.text, b, hcs, ?_⟩⟩
  rw [Text.byteLength_append, ha, ← n.width_eq]
  rfl

/-- The tree of a text is lossless. The document has the text, and all of its bytes. For every
node:
- the children of a document or a bracket tile its inside, and there are none if and only if the
  inside is empty; put together their texts are the text inside;
- the children are nodes of the tree;
- the node starts and stops at boundaries of the text, and not at the same unless it is the
  document;
- its text, and the text inside it, are what is cut out of the text at its offsets. -/
theorem children_tile (cs : List Char) :
    ((ofText cs).root.text = cs ∧ (ofText cs).root.innerStart = 0 ∧
      (ofText cs).root.innerStop = Text.byteLength cs) ∧
    ∀ n ∈ (ofText cs).nodes,
      ((n.isDocument || n.isBracket) = true →
        Tiles n.innerStart n.innerStop n.children ∧
        (n.children = [] ↔ n.innerStart = n.innerStop) ∧
        n.children.flatMap Node.text = n.nestedText) ∧
      (∀ c ∈ n.children, c ∈ (ofText cs).nodes) ∧
      (Text.Boundary cs n.start ∧ Text.Boundary cs n.stop) ∧
      (n.isDocument = false → n.start < n.stop) ∧
      Text.slice? n.start n.stop cs = some n.text ∧
      Text.slice? n.innerStart n.innerStop cs = some n.nestedText := by
  refine ⟨⟨text_root cs, rfl, ?_⟩, fun n hn => ⟨fun hi => ⟨?_, ?_, ?_⟩, children_subset hn,
    boundaries hn, start_lt_stop hn, ?_, ?_⟩⟩
  · have hwidth := (ofText cs).root.width_eq
    rw [text_root cs] at hwidth
    rw [← hwidth]
    exact Nat.zero_add _
  · rw [Node.innerWidth_eq hi]
    exact Forest.tiles_children _ _ _ _
  · have hnil := Forest.children_eq_nil_iff (filled_inner_ofText hn) (n.id :: n.ancestors)
      (n.id + 1) n.innerStart
    rw [Node.innerWidth_eq hi]
    show n.inner.children _ _ _ = [] ↔ _
    rw [hnil]
    omega
  · rw [Node.nestedText_eq hi]
    exact Forest.flatMap_text_children _ _ _ _
  · obtain ⟨a, b, hcs, ha⟩ := text_at hn
    refine Text.slice?_middle hcs ha ?_
    rw [← n.width_eq]
    rfl
  · obtain ⟨a, b, hcs, ha⟩ := text_at_inner hn
    exact Text.slice?_middle hcs ha n.innerStop_eq

end Tree

end Pddl
