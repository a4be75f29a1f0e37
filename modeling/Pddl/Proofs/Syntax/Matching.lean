/-
  Pddl.Proofs.Syntax.Matching — which brackets belong together.

  The run over the pieces of a text (`Scan`) says it: a closing bracket belongs to the innermost
  bracket that is open when it is met, and to none if there is none. The tree agrees:
  - `closed_of_moment`, `stray_of_moment`: what becomes of a closing bracket;
  - `stop_of_unclosed`: a bracket that gets none runs to the end of the text;
  - `countP_unclosed`: there are as many of them as brackets are open at the end;
  - `brackets_match`: these, the brackets around each node, and that no other tree fits the
    grammar of the pieces.
-/

import Pddl.Proofs.Syntax.Scan

namespace Pddl

/-! ## The marks of a node -/

namespace Node

variable {n : Node} {around : List Nat → List Node} {s : Scan}

theorem terminal_of_mark {kind : Terminal} {text : List Char}
    (h : (s, .terminal kind text) ∈ n.marks around) :
    n.shape = .terminal kind text ∧ s.offset = n.start ∧
      s.opened = (around n.ancestors).map (·.start) := by
  obtain ⟨id, ancestors, start, shape⟩ := n
  cases shape with
  | document => cases h
  | terminal kind' text' =>
    cases List.mem_singleton.mp h
    exact ⟨rfl, rfl, rfl⟩
  | bracket closed inner => cases closed <;> simp [marks] at h

theorem closed_of_mark (h : (s, .closing) ∈ n.marks around) :
    n.isBracket = true ∧ n.isClosed = true ∧ n.stop = s.offset + 1 ∧
      s.opened.head? = some n.start := by
  obtain ⟨id, ancestors, start, shape⟩ := n
  cases shape with
  | document => cases h
  | terminal kind' text' => simp [marks] at h
  | bracket closed inner =>
    cases closed with
    | false => simp [marks] at h
    | true =>
      rw [marks_closed] at h
      simp only [List.mem_cons, Prod.mk.injEq, reduceCtorEq, and_false, List.not_mem_nil, or_false,
        and_true, false_or] at h
      subst h
      refine ⟨rfl, rfl, ?_, rfl⟩
      simp only [stop, width, Forest.closer, if_true, List.length_singleton]
      omega

theorem mark_of_closed (around : List Nat → List Node) (hb : n.isBracket = true)
    (hc : n.isClosed = true) :
    ∃ s, (s, .closing) ∈ n.marks around ∧ s.opened.head? = some n.start := by
  obtain ⟨id, ancestors, start, shape⟩ := n
  cases shape with
  | document | terminal => cases hb
  | bracket closed inner =>
    obtain rfl : closed = true := hc
    rw [marks_closed]
    exact ⟨_, List.mem_cons_of_mem _ List.mem_cons_self, rfl⟩

/-- A node other than the document is met where it starts. -/
theorem first_mark (around : List Nat → List Node) (hd : n.isDocument = false) :
    ∃ m ∈ n.marks around, m.1.offset = n.start ∧
      m.1.opened = (around n.ancestors).map (·.start) := by
  obtain ⟨id, ancestors, start, shape⟩ := n
  cases shape with
  | document => cases hd
  | terminal | bracket => exact ⟨_, List.mem_cons_self, rfl, rfl⟩

end Node

/-! ## Brackets left open -/

namespace Forest

variable {f : Forest} {above : List Nat} {id start : Nat} {n : Node}

theorem isClosed_of_sealed (hf : f.Sealed) (h : n ∈ f.nodes above id start) :
    n.isClosed = true := by
  induction f generalizing above id start with
  | nil => cases h
  | leaf kind text rest ih =>
    rcases List.mem_cons.mp h with rfl | h
    · rfl
    · exact ih hf h
  | bracket closed inner rest ihi ihr =>
    obtain ⟨rfl, hi, hr⟩ := hf
    rcases mem_nodes_bracket.mp h with rfl | h | h
    · rfl
    · exact ihi hi h
    · exact ihr hr h

theorem stop_of_unclosed (hf : f.OpenLast) (h : n ∈ f.nodes above id start)
    (hc : n.isClosed = false) : n.stop = start + f.width := by
  induction f generalizing above id start with
  | nil => cases h
  | leaf kind text rest ih =>
    rcases List.mem_cons.mp h with rfl | h
    · cases hc
    · rw [ih hf h, width, Nat.add_assoc]
  | bracket closed inner rest ihi ihr =>
    cases closed with
    | true =>
      obtain ⟨hi, hr⟩ := hf
      rcases mem_nodes_bracket.mp h with rfl | h | h
      · cases hc
      · rw [isClosed_of_sealed hi h] at hc
        cases hc
      · rw [ihr hr h]
        simp only [width]
        omega
    | false =>
      obtain ⟨hi, rfl⟩ := hf
      rcases mem_nodes_bracket.mp h with rfl | h | h
      · simp only [Node.stop, Node.width, width, Nat.add_zero]
      · rw [ihi hi h]
        simp only [width, closer, Bool.false_eq_true, if_false, List.length_nil]
        omega
      · cases h

theorem countP_unclosed_of_sealed (hf : f.Sealed) :
    (f.nodes above id start).countP (!·.isClosed) = 0 := by
  rw [List.countP_eq_zero]
  intro n hn
  simp [isClosed_of_sealed hf hn]

/-- Behind a forest as many more brackets are open as it leaves open. -/
theorem countP_unclosed {f : Forest} (hf : f.OpenLast) (s : Scan) (above : List Nat)
    (id start : Nat) :
    (s.run f.pieces).depth = s.depth + (f.nodes above id start).countP (!·.isClosed) := by
  induction f generalizing s above id start with
  | nil => rfl
  | leaf kind text rest ih =>
    show ((s.next (.terminal kind text)).run rest.pieces).depth = _
    rw [ih hf _ above (id + 1) (start + Text.byteLength text), nodes,
      List.countP_cons_of_neg (by simp [Node.isClosed])]
    rfl
  | bracket closed inner rest ihi ihr =>
    cases closed with
    | true =>
      obtain ⟨hi, hr⟩ := hf
      show ((s.next .opening).run (inner.pieces ++ .closing :: rest.pieces)).depth = _
      rw [Scan.run_append, Scan.run_pieces hi, nodes,
        List.countP_cons_of_neg (by simp [Node.isClosed]), List.countP_append,
        countP_unclosed_of_sealed hi, Nat.zero_add]
      show (((⟨_, _⟩ : Scan).next .closing).run rest.pieces).depth = _
      rw [ihr hr]
      rfl
    | false =>
      obtain ⟨hi, rfl⟩ := hf
      show ((s.next .opening).run (inner.pieces ++ [])).depth = _
      rw [List.append_nil, ihi hi _ (id :: above) (id + 1) (start + 1), nodes,
        List.countP_cons_of_pos (by simp [Node.isClosed]), nodes, List.append_nil]
      simp only [Scan.depth, Scan.next_opening, List.length_cons]
      omega

/-- The nodes around a node are the brackets around it, and the document. -/
theorem ancestors_eq {around : List Nat → List Node} (ha : Finds around (f.nodes above id start))
    (habove : above = (around above).map (·.id) ++ [0]) (h : n ∈ f.nodes above id start) :
    n.ancestors = (around n.ancestors).map (·.id) ++ [0] := by
  induction f generalizing above id start with
  | nil => cases h
  | leaf kind text rest ih =>
    rcases List.mem_cons.mp h with rfl | h
    · exact habove
    · exact ih (fun m hm => ha m (List.mem_cons_of_mem _ hm)) habove h
  | bracket closed inner rest ihi ihr =>
    have hself := ha _ List.mem_cons_self rfl
    rcases mem_nodes_bracket.mp h with rfl | h | h
    · exact habove
    · refine ihi (finds_inside ha) ?_ h
      rw [hself, List.map_cons, List.cons_append, ← habove]
    · exact ihr (finds_behind ha) habove h

end Forest

/-! ## The tree of a text -/

namespace Tree

variable {cs : List Char} {n : Node} {s : Scan}

theorem mark_of_moment {piece : Lexeme} (h : (s, piece) ∈ Scan.momentsOf cs) :
    ∃ n ∈ (ofText cs).nodes,
      (s, piece.settled s.depth) ∈ n.marks (ofText cs).bracketsAmong := by
  have hmem := (marks_perm_moments cs).mem_iff.mpr (List.mem_map_of_mem h)
  exact List.mem_flatMap.mp hmem

theorem moment_of_mark {m : Scan × Lexeme} (hn : n ∈ (ofText cs).nodes)
    (hm : m ∈ n.marks (ofText cs).bracketsAmong) :
    ∃ piece, (m.1, piece) ∈ Scan.momentsOf cs ∧
      piece.settled m.1.depth = m.2 := by
  have hmem := (marks_perm_moments cs).mem_iff.mp (List.mem_flatMap.mpr ⟨n, hn, hm⟩)
  obtain ⟨⟨s, piece⟩, hp, rfl⟩ := List.mem_map.mp hmem
  exact ⟨piece, hp, rfl⟩

theorem ancestors_eq (hn : n ∈ (ofText cs).nodes) (hd : n.isDocument = false) :
    n.ancestors = ((ofText cs).bracketsAmong n.ancestors).map (·.id) ++ [0] := by
  rw [nodes_eq] at hn
  rcases List.mem_cons.mp hn with rfl | hn
  · cases hd
  · refine Forest.ancestors_eq (fun m hm => ?_) (by rw [bracketsAmong_root]; rfl) hn
    refine finds_bracketsAmong (ofText cs) m ?_
    rw [nodes_eq]
    exact List.mem_cons_of_mem _ hm

/-- A closing bracket that is met with no bracket open is a token of the document. -/
theorem stray_of_moment (h : (s, .closing) ∈ Scan.momentsOf cs)
    (hdepth : s.depth = 0) :
    ∃ n ∈ (ofText cs).nodes, n.shape = .terminal .token [')'] ∧ n.start = s.offset ∧
      n.ancestors = [0] := by
  obtain ⟨n, hn, hm⟩ := mark_of_moment h
  rw [Lexeme.settled, if_pos ⟨rfl, hdepth⟩] at hm
  obtain ⟨hshape, hoffset, hopened⟩ := Node.terminal_of_mark hm
  refine ⟨n, hn, hshape, hoffset.symm, ?_⟩
  have hnone : (ofText cs).bracketsAmong n.ancestors = [] := by
    rw [Scan.depth, hopened, List.length_map] at hdepth
    exact List.eq_nil_of_length_eq_zero hdepth
  rw [ancestors_eq hn (by simp [Node.isDocument, hshape]), hnone]
  rfl

/-- Any other closes the bracket that was opened last. -/
theorem closed_of_moment {start : Nat}
    (h : (s, .closing) ∈ Scan.momentsOf cs)
    (hopened : s.opened.head? = some start) :
    ∃ n ∈ (ofText cs).nodes, n.isBracket = true ∧ n.isClosed = true ∧ n.start = start ∧
      n.stop = s.offset + 1 := by
  obtain ⟨n, hn, hm⟩ := mark_of_moment h
  have hdepth : ¬ s.depth = 0 := by
    intro hd
    rw [List.eq_nil_of_length_eq_zero hd] at hopened
    cases hopened
  rw [Lexeme.settled, if_neg fun hc => hdepth hc.2] at hm
  obtain ⟨hb, hc, hstop, hhead⟩ := Node.closed_of_mark hm
  rw [hopened] at hhead
  exact ⟨n, hn, hb, hc, (Option.some.inj hhead).symm, hstop⟩

theorem moment_of_closed (hn : n ∈ (ofText cs).nodes) (hb : n.isBracket = true)
    (hc : n.isClosed = true) :
    ∃ s, (s, .closing) ∈ Scan.momentsOf cs ∧
      s.opened.head? = some n.start := by
  obtain ⟨s, hm, hhead⟩ := Node.mark_of_closed (ofText cs).bracketsAmong hb hc
  obtain ⟨piece, hp, hsettled⟩ := moment_of_mark hn hm
  refine ⟨s, ?_, hhead⟩
  have hpiece : piece = .closing := by
    unfold Lexeme.settled at hsettled
    split at hsettled
    · cases hsettled
    · exact hsettled
  rwa [hpiece] at hp

theorem not_document (hb : n.isBracket = true) : n.isDocument = false := by
  obtain ⟨id, ancestors, start, shape⟩ := n
  cases shape with
  | document => cases hb
  | bracket | terminal => rfl

/-- Two nodes other than the document that start at the same offset are one. -/
theorem eq_of_start_eq {m : Node} (hm : m ∈ (ofText cs).nodes) (hmd : m.isDocument = false)
    (hn : n ∈ (ofText cs).nodes) (hnd : n.isDocument = false) (h : m.start = n.start) : m = n := by
  rw [nodes_eq] at hm hn
  rcases List.mem_cons.mp hm with rfl | hm
  · cases hmd
  rcases List.mem_cons.mp hn with rfl | hn
  · cases hnd
  have hincreasing : ((ofText cs).forest.nodes [0] 1 0).Pairwise (·.start < ·.start) :=
    Forest.starts_increasing (Forest.filled_ofText cs)
  exact eq_of_increasing hincreasing hm hn h

theorem stop_of_unclosed (hn : n ∈ (ofText cs).nodes) (hc : n.isClosed = false) :
    n.stop = Text.byteLength cs := by
  rw [nodes_eq] at hn
  rcases List.mem_cons.mp hn with rfl | hn
  · cases hc
  · rw [Forest.stop_of_unclosed (Forest.openLast_ofLexemes _) hn hc, Nat.zero_add,
      Forest.width_eq]
    exact congrArg Text.byteLength (Forest.text_ofText cs)

theorem countP_unclosed (cs : List Char) :
    (ofText cs).nodes.countP (!·.isClosed) =
      (Lexeme.lexemes cs).foldl Lexeme.depthAfter 0 := by
  have hcount := Forest.countP_unclosed (Forest.openLast_ofLexemes (Lexeme.lexemes cs))
    Scan.start [0] 1 0
  have hsettle := Scan.run_settle Scan.start (Lexeme.lexemes cs)
  rw [Forest.pieces_ofLexemes] at hcount
  rw [nodes_eq, List.countP_cons_of_neg (by simp [root, Node.isClosed])]
  calc ((ofText cs).forest.nodes [0] 1 0).countP (!·.isClosed)
      = (Scan.start.run (Lexeme.settle 0 (Lexeme.lexemes cs))).depth := by
        rw [hcount]
        exact (Nat.zero_add _).symm
    _ = (Scan.start.run (Lexeme.lexemes cs)).depth := congrArg Scan.depth hsettle
    _ = (Lexeme.lexemes cs).foldl Lexeme.depthAfter 0 := Scan.depth_run _ _

/-- Brackets are matched as the run over the pieces of a text says.
- A closing bracket that is met at depth zero is a token `)` directly in the document.
- Any other closes the bracket that was opened last of those still open.
- A bracket is closed if and only if there is such a closing bracket for it; it stops right behind
  that one, and at the end of the text if there is none.
- The brackets around a node are those open where it starts.
- The number of brackets left open is the depth at the end.
- The tree is the only one that the grammar gives for the pieces. -/
theorem brackets_match (cs : List Char) :
    (∀ s, (s, .closing) ∈ Scan.momentsOf cs → s.depth = 0 →
      ∃ n ∈ (ofText cs).nodes, n.shape = .terminal .token [')'] ∧ n.start = s.offset ∧
        n.ancestors = [0]) ∧
    (∀ s b, (s, .closing) ∈ Scan.momentsOf cs → s.opened.head? = some b →
      ∃ n ∈ (ofText cs).nodes, n.isBracket = true ∧ n.isClosed = true ∧ n.start = b ∧
        n.stop = s.offset + 1) ∧
    (∀ n ∈ (ofText cs).nodes, n.isBracket = true →
      (n.isClosed = true ↔
        ∃ s, (s, .closing) ∈ Scan.momentsOf cs ∧ s.opened.head? = some n.start) ∧
      (∀ s, (s, .closing) ∈ Scan.momentsOf cs → s.opened.head? = some n.start →
        n.stop = s.offset + 1) ∧
      (n.isClosed = false → n.stop = Text.byteLength cs)) ∧
    (∀ n ∈ (ofText cs).nodes, n.isDocument = false →
      ∃ m ∈ Scan.momentsOf cs, m.1.offset = n.start ∧
        m.1.opened = ((ofText cs).bracketsAmong n.ancestors).map (·.start)) ∧
    (ofText cs).nodes.countP (!·.isClosed) =
      (Lexeme.lexemes cs).foldl Lexeme.depthAfter 0 ∧
    ∀ f, Forest.Document (Lexeme.lexemes cs) f ↔ f = (ofText cs).forest := by
  refine ⟨fun s h hd => stray_of_moment h hd, fun s b h ho => closed_of_moment h ho,
    fun n hn hb => ⟨⟨moment_of_closed hn hb, ?_⟩, ?_, stop_of_unclosed hn⟩, fun n hn hd => ?_,
    countP_unclosed cs, fun f => Forest.document_iff⟩
  · rintro ⟨s, h, ho⟩
    obtain ⟨m, hm, hmb, hmc, hstart, -⟩ := closed_of_moment h ho
    rwa [← eq_of_start_eq hm (not_document hmb) hn (not_document hb) hstart]
  · intro s h ho
    obtain ⟨m, hm, hmb, hmc, hstart, hstop⟩ := closed_of_moment h ho
    rwa [← eq_of_start_eq hm (not_document hmb) hn (not_document hb) hstart]
  · obtain ⟨m, hm, hoffset, hopened⟩ := Node.first_mark (ofText cs).bracketsAmong hd
    obtain ⟨piece, hp, -⟩ := moment_of_mark hn hm
    exact ⟨(m.1, piece), hp, hoffset, hopened⟩

end Tree

end Pddl
