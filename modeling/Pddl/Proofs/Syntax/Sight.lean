/-
  Pddl.Proofs.Syntax.Sight — the node at an offset.

  A node covers the offsets of its bytes (`Node.Covers`). The nodes that cover an offset lie one in
  the other, so the innermost is the last in the list of all nodes, and looking for the offset finds
  it (`Forest.sight_eq`, `Node.nodeAt_eq`). The end of a node is the one exception. Nothing in the
  node covers it; but if no bracket closes the node, looking there still goes in, along the last
  children, as far as no bracket closes these (`Node.EndsIn`).
  - `Node.nodeAt_of_covers`: at an offset that a node covers, looking in the node finds the one of
    the greatest number that covers it, among the node and what is in it;
  - `Tree.Deepest.covers_iff`: the nodes that cover an offset are the deepest and those around it;
  - `Tree.Deepest.nodeAt_eq`: so it does not matter in which of them one looks;
  - `Node.endsIn_nodeAt`: at the end of a node that no bracket closes, looking in it goes along the
    last children;
  - `Tree.nodeAt_is_deepest`: all of it for the tree of a text.
-/

import Pddl.Proofs.Syntax.Table
import Pddl.Proofs.Syntax.Tiling

namespace Pddl

def Node.Covers (n : Node) (offset : Nat) : Prop := n.start ≤ offset ∧ offset < n.stop

instance (n : Node) (offset : Nat) : Decidable (n.Covers offset) :=
  inferInstanceAs (Decidable (n.start ≤ offset ∧ offset < n.stop))

/-- Going from `n` to the last child, again and again, as long as there is one and it is not a
closed bracket, leads to `m`. -/
inductive Node.EndsIn : Node → Node → Prop
  | here {n : Node} : (∀ c, n.children.getLast? = some c → c.endsOpen = false) → EndsIn n n
  | last {n c m : Node} : n.children.getLast? = some c → c.endsOpen = true → EndsIn c m →
      EndsIn n m

theorem Node.EndsIn.unique {n a b : Node} (ha : n.EndsIn a) (hb : n.EndsIn b) : a = b := by
  induction ha with
  | here hclosed =>
    cases hb with
    | here _ => rfl
    | last hc hopen _ => cases (hclosed _ hc).symm.trans hopen
  | last hc hopen _ ih =>
    cases hb with
    | here hclosed => cases (hclosed _ hc).symm.trans hopen
    | last hc' _ hb =>
      cases hc.symm.trans hc'
      exact ih hb

/-! ## Looking in a forest -/

namespace Forest

variable {f : Forest} {above : List Nat} {id start offset : Nat} {openEnd : Bool}

def innermost? (f : Forest) (above : List Nat) (id start offset : Nat) : Option Node :=
  ((f.nodes above id start).filter (·.Covers offset)).getLast?

theorem innermost?_eq_none (h : offset < start ∨ start + f.width ≤ offset) :
    f.innermost? above id start offset = none := by
  refine List.getLast?_eq_none_iff.mpr (List.filter_eq_nil_iff.mpr fun n hn => ?_)
  have hwithin := nodes_within hn
  rw [decide_eq_true_eq]
  rintro ⟨hstart, hstop⟩
  omega

theorem getLast?_covering (n : Node) (ns : List Node) :
    ((n :: ns).filter (·.Covers offset)).getLast? =
      (ns.filter (·.Covers offset)).getLast?.or (if n.Covers offset then some n else none) := by
  by_cases hn : n.Covers offset
  · rw [if_pos hn, List.filter_cons, if_pos (decide_eq_true hn), List.getLast?_cons]
    cases (ns.filter (·.Covers offset)).getLast? <;> rfl
  · rw [if_neg hn, List.filter_cons, if_neg (by simpa using hn), Option.or_none]

theorem innermost?_leaf (kind : Terminal) (text : List Char) (rest : Forest) :
    (leaf kind text rest).innermost? above id start offset =
      (rest.innermost? above (id + 1) (start + Text.byteLength text) offset).or
        (if start ≤ offset ∧ offset < start + Text.byteLength text then
          some ⟨id, above, start, .terminal kind text⟩ else none) :=
  getLast?_covering _ _

theorem innermost?_bracket (closed : Bool) (inner rest : Forest) :
    (bracket closed inner rest).innermost? above id start offset =
      (rest.innermost? above (id + 1 + inner.size)
        (start + 1 + inner.width + (closer closed).length) offset).or
        ((inner.innermost? (id :: above) (id + 1) (start + 1) offset).or
          (if start ≤ offset ∧ offset < start + 1 + inner.width + (closer closed).length then
            some ⟨id, above, start, .bracket closed inner⟩ else none)) := by
  have hstop : (⟨id, above, start, .bracket closed inner⟩ : Node).stop =
      start + 1 + inner.width + (closer closed).length := by
    simp only [Node.stop, Node.width, ← Nat.add_assoc]
  rw [innermost?, nodes, getLast?_covering, List.filter_append, List.getLast?_append,
    Option.or_assoc, ← hstop]
  rfl

/-- Away from its open end, a node is seen where it covers the offset. -/
theorem seen_iff {stop : Nat} (h : openEnd = true → offset ≠ stop) :
    (start ≤ offset && (offset < stop || offset == stop && openEnd)) = true ↔
      start ≤ offset ∧ offset < stop := by
  have hend : (offset == stop && openEnd) = false := by
    cases openEnd with
    | false => exact Bool.and_false _
    | true => simpa using h rfl
  rw [hend, Bool.or_false, Bool.and_eq_true, decide_eq_true_eq, decide_eq_true_eq]

theorem eq_nil_of_isEmpty (h : f.isEmpty = true) : f = nil := by
  cases f with
  | nil => rfl
  | leaf | bracket => cases h

/-- Away from an open end, what is seen is the innermost node that covers the offset. -/
theorem sight_eq (h : openEnd = true → offset ≠ start + f.width) :
    f.sight offset openEnd above id start =
      (f.innermost? above id start offset).elim (.past (id + f.size) (start + f.width)) .found := by
  induction f generalizing openEnd above id start with
  | nil => rfl
  | leaf kind text rest ih =>
    have hrest : openEnd = true → offset ≠ start + Text.byteLength text + rest.width := by
      rw [Nat.add_assoc]
      exact h
    have hhere : (openEnd && rest.isEmpty) = true → offset ≠ start + Text.byteLength text := by
      rw [Bool.and_eq_true]
      rintro ⟨hopen, hempty⟩
      have := hrest hopen
      rwa [eq_nil_of_isEmpty hempty] at this
    simp only [sight, size, width, innermost?_leaf, ← Nat.add_assoc, Bool.and_assoc,
      seen_iff hhere]
    by_cases hcovers : start ≤ offset ∧ offset < start + Text.byteLength text
    · rw [innermost?_eq_none (.inl hcovers.2), if_pos hcovers, if_pos hcovers]
      rfl
    · rw [if_neg hcovers, if_neg hcovers, Option.or_none, ih hrest]
  | bracket closed inner rest ihi ihr =>
    have hrest : openEnd = true →
        offset ≠ start + 1 + inner.width + (closer closed).length + rest.width := by
      simpa only [width, ← Nat.add_assoc] using h
    have hhere : (openEnd && rest.isEmpty && !closed) = true →
        offset ≠ start + 1 + inner.width + (closer closed).length := by
      simp only [Bool.and_eq_true]
      rintro ⟨⟨hopen, hempty⟩, -⟩
      have := hrest hopen
      rwa [eq_nil_of_isEmpty hempty] at this
    have hinner : (openEnd && rest.isEmpty && !closed) = true →
        offset ≠ start + 1 + inner.width := by
      intro hopen
      cases closed with
      | true => simp at hopen
      | false => exact hhere hopen
    simp only [sight, size, width, innermost?_bracket, ← Nat.add_assoc, ihi hinner]
    cases hin : inner.innermost? (id :: above) (id + 1) (start + 1) offset with
    | some n =>
      -- what is seen inside is the last: all that is listed behind it starts behind the offset
      have hlt : offset < start + 1 + inner.width := by
        by_contra hge
        rw [innermost?_eq_none (.inr (by omega))] at hin
        cases hin
      rw [innermost?_eq_none (.inl (by omega))]
      rfl
    | none =>
      simp only [Option.elim_none, Option.none_or, seen_iff hhere]
      by_cases hcovers : start ≤ offset ∧ offset < start + 1 + inner.width + (closer closed).length
      · rw [innermost?_eq_none (.inl hcovers.2), if_pos hcovers, if_pos hcovers]
        rfl
      · rw [if_neg hcovers, if_neg hcovers, Option.or_none, ihr hrest]

theorem sight_past (h : start + f.width ≤ offset) :
    f.sight offset false above id start = .past (id + f.size) (start + f.width) := by
  rw [sight_eq Bool.noConfusion, innermost?_eq_none (.inr h)]
  rfl

theorem getLast?_children (n : Node) (h : f.isEmpty = false) :
    (n :: f.children above id start).getLast? = (f.children above id start).getLast? := by
  cases f with
  | nil => cases h
  | leaf | bracket => exact List.getLast?_cons_cons

/-- What is seen at the open end of a forest with these children: what its last child ends in, if
no bracket closes that child. -/
inductive EndSeen (children : List Node) (next stop : Nat) : Sighting → Prop
  | inside {c m : Node} : children.getLast? = some c → c.endsOpen = true → c.EndsIn m →
      EndSeen children next stop (.found m)
  | behind : (∀ c, children.getLast? = some c → c.endsOpen = false) →
      EndSeen children next stop (.past next stop)

theorem EndSeen.cons {n : Node} {next stop : Nat} {seen : Sighting} (hf : f.isEmpty = false)
    (h : EndSeen (f.children above id start) next stop seen) :
    EndSeen (n :: f.children above id start) next stop seen := by
  cases h with
  | inside hc hopen hm => exact .inside ((getLast?_children n hf).trans hc) hopen hm
  | behind hclosed => exact .behind fun c hc => hclosed c ((getLast?_children n hf).symm.trans hc)

/-- Looking at the open end of a forest goes along the last children. -/
theorem endSeen_sight (f : Forest) (above : List Nat) (id start : Nat) :
    EndSeen (f.children above id start) (id + f.size) (start + f.width)
      (f.sight (start + f.width) true above id start) := by
  induction f generalizing above id start with
  | nil =>
    refine .behind fun c hc => ?_
    cases hc
  | leaf kind text rest ih =>
    simp only [sight, children, size, width, ← Nat.add_assoc]
    cases hempty : rest.isEmpty with
    | true =>
      obtain rfl := eq_nil_of_isEmpty hempty
      rw [if_pos (by simp [width])]
      refine .inside rfl rfl (.here fun c hc => ?_)
      cases hc
    | false =>
      rw [if_neg (by simp)]
      exact (ih _ _ _).cons hempty
  | bracket closed inner rest ihi ihr =>
    simp only [sight, children, size, width, ← Nat.add_assoc, Bool.true_and]
    -- the open end of the forest is that of the bracket only if it is the last and not closed
    cases hopen : rest.isEmpty && !closed with
    | true =>
      obtain ⟨hempty, hclosed⟩ := Bool.and_eq_true_iff.mp hopen
      obtain rfl := eq_nil_of_isEmpty hempty
      obtain rfl : closed = false := by simpa using hclosed
      have hinner := ihi (id :: above) (id + 1) (start + 1)
      simp only [closer, width, size, Bool.false_eq_true, if_false, List.length_nil, Nat.add_zero]
      generalize inner.sight _ _ _ _ _ = seen at hinner ⊢
      cases hinner with
      | inside hc hc' hm => exact .inside rfl rfl (.last hc hc' hm)
      | behind hlast =>
        have hle : start ≤ start + 1 + inner.width := by omega
        dsimp only
        rw [if_pos (by simp [hle])]
        exact .inside rfl rfl (.here hlast)
    | false =>
      rw [sight_past (by omega)]
      dsimp only
      rw [if_neg (by simp)]
      cases hempty : rest.isEmpty with
      | true =>
        obtain rfl := eq_nil_of_isEmpty hempty
        obtain rfl : closed = true := by simpa [isEmpty] using hopen
        refine .behind fun c hc => ?_
        cases hc
        rfl
      | false => exact (ihr _ _ _).cons hempty

end Forest

/-! ## Looking in a node -/

namespace Node

variable {n m : Node} {offset : Nat}

theorem nodeAt_of_nil (h : n.inner = .nil) : n.nodeAt offset = n := by
  rw [nodeAt, h]
  rfl

/-- Without a closing bracket a node stops where its inside does, if there is one. -/
theorem nil_or_stop_eq (h : n.endsOpen = true) :
    n.inner = .nil ∨ n.stop = n.innerStart + n.inner.width := by
  obtain ⟨id, ancestors, start, shape⟩ := n
  cases shape with
  | terminal kind text => exact .inl rfl
  | document inner => exact .inr rfl
  | bracket closed inner =>
    obtain rfl : closed = false := by simpa [endsOpen, isBracket, isClosed] using h
    right
    show start + (1 + inner.width + 0) = start + 1 + inner.width
    omega

/-- Anywhere but at its end, looking in a node finds the last node in it that covers the offset. -/
theorem nodeAt_eq (h : offset ≠ n.stop) :
    n.nodeAt offset = (n.descendants.filter (·.Covers offset)).getLast?.getD n := by
  by_cases hnil : n.inner = .nil
  · rw [nodeAt_of_nil hnil, descendants_eq, hnil]
    rfl
  · have hend : n.endsOpen = true → offset ≠ n.innerStart + n.inner.width := by
      intro hopen
      rwa [← (nil_or_stop_eq hopen).resolve_left hnil]
    rw [nodeAt, Forest.sight_eq hend, Forest.innermost?, ← descendants_eq]
    cases (n.descendants.filter (·.Covers offset)).getLast? <;> rfl

theorem nodeAt_behind (h : n.stop < offset) : n.nodeAt offset = n := by
  have hnone : n.descendants.filter (·.Covers offset) = [] := by
    refine List.filter_eq_nil_iff.mpr fun m hm hcovers => ?_
    have hbefore : offset < m.stop := (of_decide_eq_true hcovers).2
    have hwithin := (within_of_mem_descendants hm).2
    omega
  rw [nodeAt_eq (Nat.ne_of_gt h), hnone]
  rfl

/-- What is in a node is numbered in the order in which it is listed, behind the node. -/
theorem ids_increasing (n : Node) : (n :: n.descendants).Pairwise (·.id < ·.id) := by
  have hids : (n :: n.descendants).map (·.id) = List.range' n.id (n.inner.size + 1) := by
    rw [List.map_cons, map_id_descendants, List.range'_succ]
  rw [← List.pairwise_map (f := Node.id) (R := (· < ·)), hids]
  exact List.pairwise_lt_range'

/-- At an offset that a node covers, looking in the node finds the one of the greatest number that
covers it, among the node and what is in it. -/
theorem nodeAt_of_covers (h : n.Covers offset) :
    n.nodeAt offset ∈ n :: n.descendants ∧ (n.nodeAt offset).Covers offset ∧
      ∀ m ∈ n :: n.descendants, m.Covers offset → m.id ≤ (n.nodeAt offset).id := by
  have hlast : ((n :: n.descendants).filter (·.Covers offset)).getLast? =
      some (n.nodeAt offset) := by
    rw [nodeAt_eq (Nat.ne_of_lt h.2), List.filter_cons, if_pos (decide_eq_true h),
      List.getLast?_cons]
  obtain ⟨hin, hcovers⟩ := List.mem_filter.mp (List.mem_of_getLast? hlast)
  refine ⟨hin, of_decide_eq_true hcovers, fun m hm hmc => ?_⟩
  obtain ⟨front, hfront⟩ := List.getLast?_eq_some_iff.mp hlast
  have hids := n.ids_increasing.filter (·.Covers offset)
  have hmem : m ∈ (n :: n.descendants).filter (·.Covers offset) :=
    List.mem_filter.mpr ⟨hm, decide_eq_true hmc⟩
  rw [hfront] at hids hmem
  rcases List.mem_append.mp hmem with hmem | hmem
  · exact Nat.le_of_lt ((List.pairwise_append.mp hids).2.2 m hmem _ List.mem_cons_self)
  · rw [List.mem_singleton.mp hmem]

/-- At the end of a node that no bracket closes, looking in it goes along the last children. -/
theorem endsIn_nodeAt (h : n.endsOpen = true) : n.EndsIn (n.nodeAt n.stop) := by
  rcases nil_or_stop_eq h with hnil | hstop
  · rw [nodeAt_of_nil hnil]
    refine .here fun c hc => ?_
    rw [children, hnil] at hc
    cases hc
  · have hseen := n.inner.endSeen_sight (n.id :: n.ancestors) (n.id + 1) n.innerStart
    rw [nodeAt, h, hstop]
    generalize n.inner.sight _ _ _ _ _ = seen at hseen ⊢
    cases hseen with
    | inside hc hopen hm => exact .last hc hopen hm
    | behind hclosed => exact .here hclosed

end Node

/-! ## Looking in a tree -/

namespace Tree

structure Deepest (t : Tree) (offset : Nat) (m : Node) : Prop where
  mem : m ∈ t.nodes
  covers : m.Covers offset
  greatest : ∀ n ∈ t.nodes, n.Covers offset → n.id ≤ m.id

variable {t : Tree} {m n : Node} {offset : Nat}

theorem deepest_nodeAt (h : t.root.Covers offset) : t.Deepest offset (t.nodeAt offset) := by
  obtain ⟨hmem, hcovers, hgreatest⟩ := Node.nodeAt_of_covers h
  exact ⟨hmem, hcovers, hgreatest⟩

/-- The nodes that cover an offset are the deepest and those around it: a node in front of it that
is not around it stops before it starts. -/
theorem Deepest.covers_iff (h : t.Deepest offset m) (hn : n ∈ t.nodes) :
    n.Covers offset ↔ n = m ∨ n.id ∈ m.ancestors := by
  constructor
  · intro hc
    by_cases hid : n.id = m.id
    · exact .inl (eq_of_id_eq hn h.mem hid)
    · right
      by_contra hnot
      have hlt : n.id < m.id := Nat.lt_of_le_of_ne (h.greatest n hn hc) hid
      have hapart := stop_le_start hn h.mem hlt hnot
      have hbefore : offset < n.stop := hc.2
      have hafter : m.start ≤ offset := h.covers.1
      omega
  · intro hin
    rcases hin with rfl | habove
    · exact h.covers
    · have hwithin := Node.within_of_mem_descendants ((mem_ancestors_iff hn h.mem).mp habove)
      exact ⟨Nat.le_trans hwithin.1 h.covers.1, Nat.lt_of_lt_of_le h.covers.2 hwithin.2⟩

/-- Looking in any node that covers the offset finds the deepest. -/
theorem Deepest.nodeAt_eq (h : t.Deepest offset m) (hn : n ∈ t.nodes) (hc : n.Covers offset) :
    n.nodeAt offset = m := by
  obtain ⟨hin, hcovers, hgreatest⟩ := Node.nodeAt_of_covers hc
  have hmem : n.nodeAt offset ∈ t.nodes := by
    rcases List.mem_cons.mp hin with heq | hin
    · rwa [heq]
    · exact descendants_subset hn hin
  have hbelow : m ∈ n :: n.descendants := by
    rcases (h.covers_iff hn).mp hc with rfl | habove
    · exact List.mem_cons_self
    · exact List.mem_cons_of_mem _ ((mem_ancestors_iff hn h.mem).mp habove)
  have hle := h.greatest _ hmem hcovers
  have hge := hgreatest m hbelow h.covers
  exact eq_of_id_eq hmem h.mem (Nat.le_antisymm hle hge)

theorem stop_root (cs : List Char) : (ofText cs).root.stop = Text.byteLength cs := by
  rw [Node.stop, Node.width_eq, text_root]
  exact Nat.zero_add _

/-- Looking for an offset in a text.
- At an offset of the text, the node found has the greatest number of those that cover it. Those are
  the node itself and the nodes around it, and looking in any of them finds the same node.
- At the end of the text, it is where going along the last children leads, as long as there is one
  and it is not a closed bracket.
- Behind the text, it is the document. -/
theorem nodeAt_is_deepest (cs : List Char) (offset : Nat) :
    (offset < Text.byteLength cs →
      (ofText cs).Deepest offset ((ofText cs).nodeAt offset) ∧
      (∀ n ∈ (ofText cs).nodes, n.Covers offset ↔
        n = (ofText cs).nodeAt offset ∨ n.id ∈ ((ofText cs).nodeAt offset).ancestors) ∧
      ∀ n ∈ (ofText cs).nodes, n.Covers offset → n.nodeAt offset = (ofText cs).nodeAt offset) ∧
    (offset = Text.byteLength cs →
      ∀ m, (ofText cs).root.EndsIn m ↔ m = (ofText cs).nodeAt offset) ∧
    (Text.byteLength cs < offset → (ofText cs).nodeAt offset = (ofText cs).root) := by
  rw [← stop_root cs]
  refine ⟨fun hlt => ?_, fun hend m => ?_, Node.nodeAt_behind⟩
  · have hdeepest := deepest_nodeAt (t := ofText cs) ⟨Nat.zero_le offset, hlt⟩
    exact ⟨hdeepest, fun n hn => hdeepest.covers_iff hn, fun n hn => hdeepest.nodeAt_eq hn⟩
  · have hends : (ofText cs).root.EndsIn ((ofText cs).root.nodeAt (ofText cs).root.stop) :=
      Node.endsIn_nodeAt rfl
    rw [hend]
    exact ⟨fun hm => hm.unique hends, fun hm => hm ▸ hends⟩

/-- Inside a closed bracket, at the end of a text that leaves its outer bracket open, and behind
that text. -/
theorem an_open_bracket_is_found_at_the_end :
    let cs := "(a (b c)".toList
    let t := ofText cs
    (6 < Text.byteLength cs ∧ (t.nodeAt 6).text = "c".toList ∧ t.Deepest 6 (t.nodeAt 6) ∧
      ∃ n ∈ t.nodes, n.text = "(b c)".toList ∧ n.Covers 6 ∧ n.nodeAt 6 = t.nodeAt 6) ∧
    (8 = Text.byteLength cs ∧ (t.nodeAt 8).text = cs ∧ (t.nodeAt 8).id = 1 ∧
      t.root.EndsIn (t.nodeAt 8)) ∧
    Text.byteLength cs < 9 ∧ t.nodeAt 9 = t.root := by
  intro cs t
  obtain ⟨hdeepest, -, hsame⟩ := (nodeAt_is_deepest cs 6).1 (by decide)
  have hends := ((nodeAt_is_deepest cs 8).2.1 (by decide) (t.nodeAt 8)).mpr rfl
  have hbehind := (nodeAt_is_deepest cs 9).2.2 (by decide)
  have hbracket : ∃ n ∈ t.nodes, n.text = "(b c)".toList ∧ n.Covers 6 := by decide +kernel
  obtain ⟨n, hn, htext, hcovers⟩ := hbracket
  refine ⟨⟨by decide, by decide +kernel, hdeepest, n, hn, htext, hcovers, hsame n hn hcovers⟩, ?_,
    by decide, hbehind⟩
  exact ⟨by decide, by decide +kernel, by decide +kernel, hends⟩

end Tree

end Pddl
