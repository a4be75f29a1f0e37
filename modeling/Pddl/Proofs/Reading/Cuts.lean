/-
  Pddl.Proofs.Reading.Cuts — what is left of a node without its comments.

  The text of a node without its comments is put together from what the node holds. It can also be
  cut out of the text of the node, between the offsets of one comment and the next (`Node.cutOut?`),
  and the text behind a keyword is cut out of the whole text in the same way. Both are the bytes
  that lie in no comment, in order:
  - `comments_apart`: comments stand one behind the other, so that no cut is reversed;
  - `kept_text`: the bytes of a forest that are in no comment are those of its text without
    comments;
  - `count_uncommented`: no line feed is lost;
  - `only_comments_are_cut`: all of it for the nodes of a text;
  - `behind_keyword_only_comments_are_cut`: the same for what follows the keyword of a bracket; its
    words are the tokens of the bracket behind the first.
-/

import Pddl.Proofs.Reading.Writing
import Pddl.Proofs.Syntax.Sight
import Pddl.Proofs.Text.Kept

namespace Pddl

def InComment (ns : List Node) (offset : Nat) : Prop :=
  ∃ c ∈ ns, c.isComment = true ∧ c.Covers offset

instance (ns : List Node) (offset : Nat) : Decidable (InComment ns offset) :=
  inferInstanceAs (Decidable (∃ c ∈ ns, c.isComment = true ∧ c.Covers offset))

def Tree.below (t : Tree) (n : Node) : List Node := t.nodes.filter (n.id ∈ ·.ancestors)

/-- Cuts the text of a node around comments, from offset `last` of the node on. There is nothing to
cut out where a comment starts in front of the node, starts before `last`, or starts or stops
inside a character. -/
def Node.cutOut? (n : Node) (last : Nat) : List Node → Option (List Char)
  | [] => Text.slice? last (Text.byteLength n.text) n.text
  | c :: rest =>
    if n.start ≤ c.start then do
      let before ← Text.slice? last (c.start - n.start) n.text
      let after ← n.cutOut? (c.stop - n.start) rest
      some (before ++ after)
    else none

/-! ## The bytes of a forest -/

theorem inComment_cons {n : Node} {ns : List Node} {offset : Nat} :
    InComment (n :: ns) offset ↔ (n.isComment = true ∧ n.Covers offset) ∨ InComment ns offset := by
  simp [InComment]

theorem inComment_append {ms ns : List Node} {offset : Nat} :
    InComment (ms ++ ns) offset ↔ InComment ms offset ∨ InComment ns offset := by
  simp only [InComment, List.mem_append, or_and_right, exists_or]

namespace Forest

variable {f : Forest} {above : List Nat} {id start offset : Nat} {keep : Nat → Bool}

theorem text_bracket (closed : Bool) (inner rest : Forest) :
    (bracket closed inner rest).text = ['('] ++ inner.text ++ closer closed ++ rest.text := by
  simp [Forest.text]

theorem uncommented_bracket (closed : Bool) (inner rest : Forest) :
    (bracket closed inner rest).uncommented =
      ['('] ++ inner.uncommented ++ closer closed ++ rest.uncommented := by
  simp [uncommented]

theorem not_inComment (h : offset < start ∨ start + f.width ≤ offset) :
    ¬ InComment (f.nodes above id start) offset := by
  intro hin
  obtain ⟨c, hc, -, hle, hlt⟩ := hin
  have := nodes_within hc
  omega

/-- The bytes of a forest that are in none of its comments are those of its text without
comments. -/
theorem kept_text (f : Forest) (above : List Nat) (id start : Nat)
    (h : ∀ o, start ≤ o → o < start + f.width →
      (keep o = true ↔ ¬ InComment (f.nodes above id start) o)) :
    Text.kept keep start f.text = Text.encode f.uncommented := by
  induction f generalizing above id start with
  | nil => rfl
  | leaf kind text rest ih =>
    simp only [nodes, width, inComment_cons] at h
    have hrest : Text.kept keep (start + Text.byteLength text) rest.text =
        Text.encode rest.uncommented := by
      refine ih above (id + 1) _ fun o hle hlt => ?_
      have hnot : ¬ Node.Covers ⟨id, above, start, .terminal kind text⟩ o := by
        intro hcovers
        obtain ⟨-, hstop⟩ := hcovers
        simp only [Node.stop, Node.width] at hstop
        omega
      simp [h o (by omega) (by omega), hnot]
    rw [Forest.text, Text.kept_append, hrest, uncommented]
    by_cases hkind : kind = .comment
    · subst hkind
      rw [if_pos rfl, Text.kept_none, List.nil_append]
      intro o hle hlt
      have hcovers : Node.Covers ⟨id, above, start, .terminal .comment text⟩ o := ⟨hle, hlt⟩
      have hkeep := h o hle (by omega)
      simpa [Node.isComment, Node.isTerminal, hcovers] using hkeep
    · rw [if_neg hkind, Text.kept_all, Text.encode_append]
      intro o hle hlt
      have hkeep := h o hle (by omega)
      simpa [Node.isComment, Node.isTerminal, hkind, not_inComment (.inl hlt)] using hkeep
  | bracket closed inner rest ihi ihr =>
    have hopen : Text.byteLength ['('] = 1 := rfl
    have hclose := Tree.byteLength_closer closed
    simp only [nodes, width, inComment_cons, inComment_append, Node.isComment, Node.isTerminal,
      Bool.false_eq_true, false_and, false_or, not_or] at h
    -- neither bracket is in a comment, and the comments on both sides of one are apart
    have hleft : Text.kept keep start ['('] = Text.encode ['('] := by
      refine Text.kept_all fun o hle hlt => (h o hle (by omega)).mpr ⟨?_, ?_⟩
      · exact not_inComment (.inl (by omega))
      · exact not_inComment (.inl (by omega))
    have hinner : Text.kept keep (start + 1) inner.text = Text.encode inner.uncommented := by
      refine ihi _ _ _ fun o hle hlt => (h o (by omega) (by omega)).trans (and_iff_left ?_)
      exact not_inComment (.inl (by omega))
    have hright : Text.kept keep (start + 1 + inner.width) (closer closed) =
        Text.encode (closer closed) := by
      refine Text.kept_all fun o hle hlt => (h o (by omega) (by omega)).mpr ⟨?_, ?_⟩
      · exact not_inComment (.inr hle)
      · exact not_inComment (.inl (by omega))
    have hrest : Text.kept keep (start + 1 + inner.width + (closer closed).length) rest.text =
        Text.encode rest.uncommented := by
      refine ihr _ _ _ fun o hle hlt => (h o (by omega) (by omega)).trans (and_iff_right ?_)
      exact not_inComment (.inr (by omega))
    rw [text_bracket, uncommented_bracket]
    simp only [Text.kept_append, Text.encode_append, Text.byteLength_append, hopen, hclose,
      ← width_eq, hleft, hinner, hright, ← Nat.add_assoc, hrest]

/-- Comments stand one behind the other. -/
theorem comments_apart (f : Forest) (above : List Nat) (id start : Nat) :
    (Tree.commentsIn above id start f).Pairwise (·.stop ≤ ·.start) := by
  refine ((nodes_apart f above id start).filter Node.isComment).imp_of_mem ?_
  intro m n hm _ happart
  obtain ⟨text, hshape⟩ := Node.exists_text (List.mem_filter.mp hm).2
  have hnone : m.descendants = [] := by
    rw [Node.descendants_eq, Node.inner, hshape]
    rfl
  rw [hnone] at happart
  exact happart.resolve_left List.not_mem_nil

theorem count_uncommented {depth : Nat} {closed : Bool} (hf : f.Fits depth closed) :
    f.uncommented.count '\n' = f.text.count '\n' := by
  induction f generalizing depth closed with
  | nil => rfl
  | leaf kind text rest ih =>
    rw [Forest.text, uncommented, List.count_append, ← ih hf.2]
    by_cases hkind : kind = .comment
    · subst hkind
      rw [if_pos rfl, List.count_eq_zero_of_not_mem hf.1.2.1, Nat.zero_add]
    · rw [if_neg hkind, List.count_append]
  | bracket closed' inner rest ihi ihr =>
    simp only [Forest.text, uncommented, List.cons_append, List.count_cons, List.count_append,
      ihi hf.1, ihr hf.2]

end Forest

/-! ## The text of a node -/

namespace Node

variable {n : Node} {cs a b : List Char}

/-- The bytes of a node that are in no comment below it are those of its text without comments. -/
theorem kept_text (n : Node) :
    Text.kept (fun o => ¬ InComment n.descendants o) n.start n.text =
      Text.encode n.uncommented := by
  obtain ⟨id, ancestors, start, shape⟩ := n
  rw [descendants_eq]
  cases shape with
  | document inner => exact Forest.kept_text _ _ _ _ fun o _ _ => decide_eq_true_iff
  | terminal kind text =>
    refine Text.kept_all fun o _ _ => decide_eq_true ?_
    intro hin
    obtain ⟨c, hc, -⟩ := hin
    cases hc
  | bracket closed inner =>
    have hkept : Text.kept
        (fun o => ¬ InComment (inner.nodes (id :: ancestors) (id + 1) (start + 1)) o) start
        (Forest.bracket closed inner .nil).text =
          Text.encode (Forest.bracket closed inner .nil).uncommented := by
      refine Forest.kept_text _ ancestors id _ fun o _ _ => ?_
      simp [Forest.nodes, inComment_cons, isComment, isTerminal]
    rw [Forest.text, Forest.text, Forest.uncommented, Forest.uncommented, List.append_nil,
      List.append_nil] at hkept
    exact hkept

/-- Cutting the text of a node around comments that stand in it, one behind the other, is cutting
the whole text around them. -/
theorem cutOut?_eq_cutAround (hcs : cs = a ++ n.text ++ b) (ha : Text.byteLength a = n.start)
    {comments : List Node} {last : Nat} (hlast : n.start ≤ last)
    (hbehind : ∀ c ∈ comments, last ≤ c.start) (hwithin : ∀ c ∈ comments, c.stop ≤ n.stop)
    (hapart : comments.Pairwise (·.stop ≤ ·.start)) :
    n.cutOut? (last - n.start) comments = Tree.cutAround cs last n.stop comments := by
  have hslice : ∀ start stop, n.start ≤ start → n.start ≤ stop → stop ≤ n.stop →
      Text.slice? (start - n.start) (stop - n.start) n.text = Text.slice? start stop cs := by
    intro start stop hstart hle hstop
    have hend : stop - n.start ≤ Text.byteLength n.text := by
      rw [← n.width_eq]
      unfold Node.stop at hstop
      omega
    have hinside := Text.slice?_inside hcs (start - n.start) hend
    rwa [ha, Nat.add_sub_of_le hstart, Nat.add_sub_of_le hle, eq_comm] at hinside
  induction comments generalizing last with
  | nil =>
    have hstop : Text.byteLength n.text = n.stop - n.start := by
      rw [← n.width_eq]
      unfold Node.stop
      omega
    rw [cutOut?, Tree.cutAround, hstop]
    exact hslice last n.stop hlast (Nat.le_add_right _ _) (Nat.le_refl _)
  | cons c rest ih =>
    obtain ⟨hlt, hbehind⟩ := List.forall_mem_cons.mp hbehind
    obtain ⟨hstop, hwithin⟩ := List.forall_mem_cons.mp hwithin
    obtain ⟨hnext, hapart⟩ := List.pairwise_cons.mp hapart
    have hspan : c.start ≤ c.stop := Nat.le_add_right _ _
    rw [cutOut?, if_pos (Nat.le_trans hlast hlt), Tree.cutAround, if_neg (Nat.not_lt_of_le hlt),
      hslice last c.start hlast (by omega) (by omega), ih (by omega) hnext hwithin hapart]

end Node

namespace Tree

variable {cs : List Char} {n : Node}

theorem mem_below (hn : n ∈ (ofText cs).nodes) {m : Node} :
    m ∈ (ofText cs).below n ↔ m ∈ n.descendants := by
  simp only [below, List.mem_filter, decide_eq_true_eq]
  constructor
  · intro h
    obtain ⟨hm, habove⟩ := h
    exact (mem_ancestors_iff hn hm).mp habove
  · intro hm
    have hmem := descendants_subset hn hm
    exact ⟨hmem, (mem_ancestors_iff hn hmem).mpr hm⟩

theorem inComment_below (hn : n ∈ (ofText cs).nodes) (offset : Nat) :
    InComment ((ofText cs).below n) offset ↔ InComment n.descendants offset := by
  simp only [InComment, mem_below hn]

theorem cutAround_node (hn : n ∈ (ofText cs).nodes) :
    cutAround cs n.start n.stop n.comments = some n.uncommented := by
  have hslice := slice?_node hn
  obtain ⟨a, b, hcs, ha⟩ := text_at hn
  rw [Node.comments, Node.descendants_eq]
  obtain ⟨id, ancestors, start, shape⟩ := n
  cases shape with
  | terminal kind text => exact hslice
  | document inner => exact cutAround_forest inner _ _ hcs ha.symm
  | bracket closed inner =>
    have hforest : cs = a ++ (Forest.bracket closed inner .nil).text ++ b := by
      simpa [Node.text, Forest.text] using hcs
    have hcut := cutAround_forest _ ancestors id hforest ha.symm
    have hcomments : commentsIn ancestors id start (.bracket closed inner .nil) =
        commentsIn (id :: ancestors) (id + 1) (start + 1) inner := by
      rw [commentsIn_bracket]
      exact List.append_nil _
    rw [hcomments, Forest.uncommented, Forest.uncommented, List.append_nil] at hcut
    exact hcut

theorem cutOut?_node (hn : n ∈ (ofText cs).nodes) :
    n.cutOut? 0 n.comments = some n.uncommented := by
  obtain ⟨a, b, hcs, ha⟩ := text_at hn
  have hwithin : ∀ c ∈ n.comments, n.start ≤ c.start ∧ c.stop ≤ n.stop := fun c hc =>
    Node.within_of_mem_descendants (List.mem_filter.mp hc).1
  have hapart : n.comments.Pairwise (·.stop ≤ ·.start) := by
    rw [Node.comments, Node.descendants_eq]
    exact Forest.comments_apart _ _ _ _
  have hcut := Node.cutOut?_eq_cutAround hcs ha (Nat.le_refl _) (fun c hc => (hwithin c hc).1)
    (fun c hc => (hwithin c hc).2) hapart
  rw [Nat.sub_self] at hcut
  rw [hcut, cutAround_node hn]

theorem count_uncommented (hn : n ∈ (ofText cs).nodes) :
    n.uncommented.count '\n' = n.text.count '\n' := by
  by_cases hkind : (n.isDocument || n.isBracket) = true
  · rw [← Node.uncommented_alone hkind, ← n.text_alone]
    exact Forest.count_uncommented (alone_fits hn hkind).2
  · obtain ⟨id, ancestors, start, shape⟩ := n
    cases shape with
    | document | bracket => exact absurd rfl hkind
    | terminal => rfl

/-- The text of a node without its comments is exact. Cutting the text of the node around the
comments in it always works, and gives this text. Its bytes are those of the node but for the bytes
of comments somewhere below the node, in the same order. It has all line feeds of the node. -/
theorem only_comments_are_cut (cs : List Char) (n : Node) (hn : n ∈ (ofText cs).nodes) :
    n.cutOut? 0 n.comments = some n.uncommented ∧
    Text.encode n.uncommented =
      Text.kept (fun o => ¬ InComment ((ofText cs).below n) o) n.start n.text ∧
    n.uncommented.count '\n' = n.text.count '\n' := by
  refine ⟨cutOut?_node hn, ?_, count_uncommented hn⟩
  simp only [inComment_below hn]
  exact n.kept_text.symm

/-- A bracket left open, with a comment of two-byte characters in front of a carriage return and one
at the end of the text, inside an inner bracket. -/
theorem two_comments_are_cut :
    let cs := "a (b ;é)\r\n(c ;".toList
    let s := "(b \r\n(c ".toList
    ∃ n ∈ (ofText cs).nodes, n.isBracket = true ∧ n.uncommented = s ∧
      n.cutOut? 0 n.comments = some s ∧
      Text.encode s = Text.kept (fun o => ¬ InComment ((ofText cs).below n) o) 2 n.text ∧
      s.count '\n' = n.text.count '\n' := by
  intro cs s
  obtain ⟨n, hn, hbracket, hstart, htext⟩ :
      ∃ n ∈ (ofText cs).nodes, n.isBracket = true ∧ n.start = 2 ∧ n.uncommented = s := by
    decide +kernel
  obtain ⟨hcut, hkept, hcount⟩ := only_comments_are_cut cs n hn
  rw [htext] at hcut hcount
  rw [htext, hstart] at hkept
  exact ⟨n, hn, hbracket, htext, hcut, hkept, hcount⟩

/-! ## The text behind a keyword -/

/-- What is behind the keyword of a bracket is in a comment below the bracket if and only if it is
in one behind the keyword. -/
theorem kept_behindKeyword (hn : n ∈ (ofText cs).nodes) (hb : n.isBracket = true) :
    Text.slice? (keywordStop n) n.innerStop cs = some n.inner.behindKeyword.text ∧
    Text.kept (fun o => ¬ InComment n.descendants o) (keywordStop n) n.inner.behindKeyword.text =
      Text.encode n.inner.behindKeyword.uncommented := by
  obtain ⟨a, b, id, passed, hcs, ha, hstop, hnodes, hpassed⟩ := exists_behindKeyword hn hb
  constructor
  · refine Text.slice?_middle hcs ha ?_
    rw [hstop, Forest.width_eq]
  · refine Forest.kept_text _ (n.id :: n.ancestors) id _ fun o hle _ => ?_
    have hnot : ¬ InComment passed o := by
      intro hin
      obtain ⟨c, hc, -, -, hlt⟩ := hin
      have := hpassed c hc
      omega
    rw [decide_eq_true_iff, hnodes, inComment_append, or_iff_right hnot]

theorem words_behindKeyword (hn : n ∈ (ofText cs).nodes) (hb : n.isBracket = true)
    (hnone : n.brackets = []) :
    Text.words n.inner.behindKeyword.uncommented = (n.tokens.drop 1).map Node.text := by
  have hinsides : n.inner.insides = [] := by
    rw [← Forest.map_inner_brackets n.inner (n.id :: n.ancestors) (n.id + 1) n.innerStart]
    exact List.map_eq_nil_iff.mpr hnone
  have hfits := (alone_fits hn (by rw [hb, Bool.or_true])).2
  rw [List.map_drop, n.map_text_tokens]
  obtain ⟨id, ancestors, start, shape⟩ := n
  cases shape with
  | document | terminal => cases hb
  | bracket closed inner => exact Forest.words_behindKeyword hfits.1 hinsides

/-- The text behind the keyword of a bracket agrees with its tree. It is always found. It is what
follows the first token of the bracket up to its closing bracket or the end, or the whole inside
where there is no token, without the bytes of comments below the bracket. If no bracket stands
directly in the bracket, its words are the tokens of the bracket behind the first one. -/
theorem behind_keyword_only_comments_are_cut (cs : List Char) (n : Node)
    (hn : n ∈ (ofText cs).nodes) (hb : n.isBracket = true) :
    ∃ part s, Text.slice? (keywordStop n) n.innerStop cs = some part ∧
      (ofText cs).textAfterKeyword n = .ok s ∧
      Text.encode s =
        Text.kept (fun o => ¬ InComment ((ofText cs).below n) o) (keywordStop n) part ∧
      (n.brackets = [] → Text.words s = (n.tokens.drop 1).map Node.text) := by
  obtain ⟨hpart, hkept⟩ := kept_behindKeyword hn hb
  refine ⟨_, _, hpart, textAfterKeyword_eq hn hb, ?_, words_behindKeyword hn hb⟩
  simp only [inComment_below hn]
  exact hkept.symm

/-- A keyword behind a comment, and a bracket left open that ends in a comment. -/
theorem a_comment_glues_no_words :
    let cs := "(;:k\n:types a;b ;é\n- c ;d".toList
    ∃ n ∈ (ofText cs).nodes, n.isBracket = true ∧ n.brackets = [] ∧ keywordStop n = 11 ∧
      n.innerStop = 26 ∧ ∃ part s,
        Text.slice? 11 26 cs = some part ∧ (ofText cs).textAfterKeyword n = .ok s ∧
        Text.encode s = Text.kept (fun o => ¬ InComment ((ofText cs).below n) o) 11 part ∧
        Text.words s = ["a;b".toList, "-".toList, "c".toList] := by
  intro cs
  obtain ⟨n, hn, hbracket, hnone, hstart, hstop, htokens⟩ :
      ∃ n ∈ (ofText cs).nodes, n.isBracket = true ∧ n.brackets = [] ∧ keywordStop n = 11 ∧
        n.innerStop = 26 ∧
        (n.tokens.drop 1).map Node.text = ["a;b".toList, "-".toList, "c".toList] := by
    decide +kernel
  obtain ⟨part, s, hpart, hs, hkept, hwords⟩ :=
    behind_keyword_only_comments_are_cut cs n hn hbracket
  rw [hstart] at hpart hkept
  rw [hstop] at hpart
  exact ⟨n, hn, hbracket, hnone, hstart, hstop, part, s, hpart, hs, hkept,
    (hwords hnone).trans htokens⟩

end Tree

end Pddl
