/-
  Pddl.Proofs.Reading.Steps — the steps of a plan are counted by the lines of its text.

  Steps are counted in what is left of a text without its comments, line by line. Positions are
  those of the whole text. Comments hold no line feed, so leaving them out moves nothing to another
  line:
  - `inkedFrom`: the lines of the characters that are not blank, one after the other; without
    repetitions they are as many as the lines with such a character (`length_dedup_inkedFrom`);
  - `mem_inkedFrom_uncommented`: what is left of a forest has its characters on the lines of the
    bytes of its tokens and brackets (`Node.Inks`);
  - `exists_inks_iff`: these are the bytes that are neither in a blank nor in a comment;
  - `steps_are_inked_lines`: so a plan has as many steps as there are lines with such a byte.
-/

import Mathlib.Data.List.Dedup
import Pddl.Reader
import Pddl.Proofs.Position.Lines
import Pddl.Proofs.Reading.Cuts

namespace Pddl

/-! ## Lines of a text -/

namespace Text

/-- The lines on which the characters stand that are not blank, in a text that starts on a line. -/
def inkedFrom (line : Nat) : List Char → List Nat
  | [] => []
  | c :: cs =>
    if c = '\n' then inkedFrom (line + 1) cs
    else if isBlank c then inkedFrom line cs
    else line :: inkedFrom line cs

theorem inkedFrom_append (line : Nat) (a b : List Char) :
    inkedFrom line (a ++ b) = inkedFrom line a ++ inkedFrom (line + a.count '\n') b := by
  induction a generalizing line with
  | nil => rfl
  | cons c a ih =>
    rw [List.cons_append, inkedFrom, inkedFrom, List.count_cons]
    by_cases hc : c = '\n'
    · simp [hc, ih, Nat.add_right_comm, Nat.add_assoc]
    · by_cases hb : isBlank c = true
      · simp [hc, hb, ih]
      · simp [hc, hb, ih]

theorem inkedFrom_blanks {cs : List Char} (h : ∀ c ∈ cs, isBlank c = true) (line : Nat) :
    inkedFrom line cs = [] := by
  induction cs generalizing line with
  | nil => rfl
  | cons c cs ih =>
    obtain ⟨hc, hcs⟩ := List.forall_mem_cons.mp h
    simp [inkedFrom, hc, ih hcs]

theorem ne_lf_of_not_blank {c : Char} (h : isBlank c = false) : c ≠ '\n' := by
  rintro rfl
  revert h
  decide

theorem inkedFrom_word {w : List Char} (h : ∀ c ∈ w, isBlank c = false) (line : Nat) :
    inkedFrom line w = List.replicate w.length line := by
  induction w with
  | nil => rfl
  | cons c w ih =>
    obtain ⟨hc, hw⟩ := List.forall_mem_cons.mp h
    simp [inkedFrom, ne_lf_of_not_blank hc, hc, ih hw, List.replicate_succ]

theorem le_of_mem_inkedFrom {line line' : Nat} {cs : List Char} (h : line' ∈ inkedFrom line cs) :
    line ≤ line' := by
  induction cs generalizing line with
  | nil => cases h
  | cons c cs ih =>
    unfold inkedFrom at h
    split at h
    · have := ih h
      omega
    · split at h
      · exact ih h
      · rcases List.mem_cons.mp h with rfl | h
        · exact Nat.le_refl _
        · exact ih h

/-- A line counts once, however many characters stand on it: the first line of a text is listed if
and only if it has ink, and the listed lines are as many as the lines with ink. -/
theorem exists_first_line (line : Nat) (cs : List Char) :
    ∃ first rest, lines cs = first :: rest ∧
      (line ∈ inkedFrom line cs ↔ hasInk first = true) ∧
      (inkedFrom line cs).dedup.length = (first :: rest).countP hasInk := by
  induction cs generalizing line with
  | nil => exact ⟨[], [], rfl, by simp [inkedFrom, hasInk], rfl⟩
  | cons c cs ih =>
    by_cases hc : c = '\n'
    · obtain ⟨first, rest, hlines, -, hcount⟩ := ih (line + 1)
      have hfeed : inkedFrom line (c :: cs) = inkedFrom (line + 1) cs := by simp [inkedFrom, hc]
      have hnot : line ∉ inkedFrom (line + 1) cs := fun hmem => by
        have := le_of_mem_inkedFrom hmem
        omega
      refine ⟨[], first :: rest, by rw [lines, if_pos hc, hlines], ?_, ?_⟩
      · rw [hfeed]
        exact iff_of_false hnot Bool.false_ne_true
      · rw [hfeed, hcount]
        exact (List.countP_cons_of_neg Bool.false_ne_true).symm
    · obtain ⟨first, rest, hlines, hfirst, hcount⟩ := ih line
      have hnext : lines (c :: cs) = (c :: first) :: rest := by
        rw [lines, if_neg hc, hlines]
        rfl
      by_cases hb : isBlank c = true
      · have hblank : inkedFrom line (c :: cs) = inkedFrom line cs := by simp [inkedFrom, hc, hb]
        have hink : hasInk (c :: first) = hasInk first := by simp [hasInk, hb]
        refine ⟨c :: first, rest, hnext, ?_, ?_⟩
        · rw [hblank, hfirst, hink]
        · rw [hblank, hcount, List.countP_cons, List.countP_cons, hink]
      · have hinked : inkedFrom line (c :: cs) = line :: inkedFrom line cs := by
          simp [inkedFrom, hc, hb]
        have hink : hasInk (c :: first) = true := by simp [hasInk, hb]
        refine ⟨c :: first, rest, hnext, ?_, ?_⟩
        · rw [hinked]
          exact iff_of_true List.mem_cons_self hink
        · rw [hinked, List.countP_cons_of_pos hink]
          -- the first line is new unless there is more ink on it
          by_cases hmem : line ∈ inkedFrom line cs
          · rw [List.dedup_cons_of_mem hmem, hcount, List.countP_cons_of_pos (hfirst.mp hmem)]
          · rw [List.dedup_cons_of_notMem hmem, List.length_cons, hcount,
              List.countP_cons_of_neg fun h => hmem (hfirst.mpr h)]

theorem length_dedup_inkedFrom (line : Nat) (cs : List Char) :
    (inkedFrom line cs).dedup.length = (lines cs).countP hasInk := by
  obtain ⟨first, rest, hlines, -, hcount⟩ := exists_first_line line cs
  rw [hlines, hcount]

end Text

/-! ## Lines of tokens and brackets -/

/-- The offset is that of a byte of a token, or of an opening or a closing bracket. -/
def Node.Inks (n : Node) (offset : Nat) : Prop :=
  match n.shape with
  | .terminal .token _ => n.Covers offset
  | .bracket closed _ => offset = n.start ∨ closed = true ∧ offset + 1 = n.stop
  | _ => False

def Node.Veils (n : Node) (offset : Nat) : Prop :=
  (n.isBlank = true ∨ n.isComment = true) ∧ n.Covers offset

theorem Node.Inks.covers {n : Node} {offset : Nat} (h : n.Inks offset) : n.Covers offset := by
  obtain ⟨id, ancestors, start, shape⟩ := n
  cases shape with
  | document inner => cases h
  | terminal kind text =>
    cases kind with
    | token => exact h
    | blank | comment => cases h
  | bracket closed inner =>
    simp only [Inks, stop, width] at h
    simp only [Covers, stop, width]
    omega

namespace Forest

variable {f inner : Forest} {above : List Nat} {id start offset depth : Nat} {closed : Bool}

/-- Outside a forest none of its nodes has a byte. -/
theorem nothing_outside (f : Forest) (above : List Nat) (id : Nat)
    (h : offset < start ∨ start + f.width ≤ offset) :
    (¬ ∃ n ∈ f.nodes above id start, n.Inks offset) ∧
      ¬ ∃ n ∈ f.nodes above id start, n.Veils offset := by
  have hnot : ∀ n ∈ f.nodes above id start, ¬ n.Covers offset := by
    rintro n hn ⟨hle, hlt⟩
    have := nodes_within hn
    omega
  constructor
  · intro hin
    obtain ⟨n, hn, hinks⟩ := hin
    exact hnot n hn hinks.covers
  · intro hin
    obtain ⟨n, hn, hveils⟩ := hin
    exact hnot n hn hveils.2

/-- The bytes that a bracket has of its own are in front of its inside and behind it. -/
theorem inks_bracket :
    Node.Inks ⟨id, above, start, .bracket closed inner⟩ offset ↔
      (start ≤ offset ∧ offset < start + 1) ∨
      (start + 1 + inner.width ≤ offset ∧
        offset < start + 1 + inner.width + (closer closed).length) := by
  simp only [Node.Inks, Node.stop, Node.width]
  cases closed with
  | true =>
    simp only [closer, if_true, List.length_singleton, true_and]
    omega
  | false =>
    simp only [closer, Bool.false_eq_true, if_false, List.length_nil, false_and, or_false]
    omega

/-- A byte of a forest is one of a token or a bracket, or else of a blank or a comment. -/
theorem exists_inks_iff (hle : start ≤ offset) (hlt : offset < start + f.width) :
    (∃ n ∈ f.nodes above id start, n.Inks offset) ↔
      ¬ ∃ n ∈ f.nodes above id start, n.Veils offset := by
  induction f generalizing above id start with
  | nil =>
    rw [width] at hlt
    omega
  | leaf kind text rest ih =>
    rw [width] at hlt
    simp only [nodes, List.mem_cons, or_and_right, exists_or, exists_eq_left]
    by_cases hhere : offset < start + Text.byteLength text
    · have hrest := rest.nothing_outside above (id + 1) (.inl hhere)
      have hcovers : Node.Covers ⟨id, above, start, .terminal kind text⟩ offset := ⟨hle, hhere⟩
      simp only [hrest, or_false]
      cases kind <;> simp [Node.Inks, Node.Veils, Node.isBlank, Node.isComment, Node.isTerminal,
        hcovers]
    · have hnot : ¬ Node.Covers ⟨id, above, start, .terminal kind text⟩ offset := fun h => hhere h.2
      rw [or_iff_right fun h => hnot h.covers, or_iff_right fun h => hnot h.2]
      exact ih (by omega) (by omega)
  | bracket closed inner rest ihi ihr =>
    rw [width] at hlt
    simp only [mem_nodes_bracket, or_and_right, exists_or, exists_eq_left]
    have hveils : ¬ Node.Veils ⟨id, above, start, .bracket closed inner⟩ offset := by
      simp [Node.Veils, Node.isBlank, Node.isComment, Node.isTerminal]
    rw [or_iff_right hveils]
    by_cases hhere : offset < start + 1 + inner.width + (closer closed).length
    · have hrest := rest.nothing_outside above (id + 1 + inner.size) (.inl hhere)
      simp only [hrest, or_false]
      by_cases hinner : start + 1 ≤ offset ∧ offset < start + 1 + inner.width
      · rw [or_iff_right fun h => by have := inks_bracket.mp h; omega]
        exact ihi hinner.1 hinner.2
      · have hout : offset < start + 1 ∨ start + 1 + inner.width ≤ offset := by omega
        have hnone := inner.nothing_outside (id :: above) (id + 1) hout
        exact iff_of_true (.inl (inks_bracket.mpr (by omega))) hnone.2
    · have hout : offset < start + 1 ∨ start + 1 + inner.width ≤ offset := by omega
      have hnone := inner.nothing_outside (id :: above) (id + 1) hout
      rw [or_iff_right fun h => by have := inks_bracket.mp h; omega]
      simp only [hnone, false_or]
      exact ihr (by omega) (by omega)

/-! ## Lines of what is left of a forest -/

variable {cs a b : List Char}

theorem mem_inkedFrom_word (line : Nat) {w : List Char} (hcs : cs = a ++ w ++ b)
    (hw : ∀ c ∈ w, Text.isBlank c = false) :
    line ∈ Text.inkedFrom (a.count '\n') w ↔ ∃ o, Text.byteLength a ≤ o ∧
      o < Text.byteLength a + Text.byteLength w ∧ LineMap.feedsBefore cs o = line := by
  have hfeed : '\n' ∉ w := fun hmem => Text.ne_lf_of_not_blank (hw _ hmem) rfl
  rw [Text.inkedFrom_word hw, List.mem_replicate]
  constructor
  · intro h
    obtain ⟨hlength, rfl⟩ := h
    have hpos : 0 < Text.byteLength w := Text.byteLength_pos fun h => hlength (by rw [h]; rfl)
    refine ⟨Text.byteLength a, Nat.le_refl _, by omega, ?_⟩
    exact LineMap.feedsBefore_eq hcs hfeed (Nat.le_refl _) (by omega)
  · intro h
    obtain ⟨o, hle, hlt, rfl⟩ := h
    refine ⟨?_, LineMap.feedsBefore_eq hcs hfeed hle hlt⟩
    intro hlength
    rw [List.eq_nil_of_length_eq_zero hlength, Text.byteLength_nil] at hlt
    omega

/-- What is left of a forest without its comments has its characters on the lines of its tokens and
brackets. -/
theorem mem_inkedFrom_uncommented (line : Nat) (above : List Nat) (id : Nat)
    (hf : f.Fits depth closed) (hcs : cs = a ++ f.text ++ b) (hstart : Text.byteLength a = start) :
    line ∈ Text.inkedFrom (a.count '\n') f.uncommented ↔
      ∃ n ∈ f.nodes above id start, ∃ o, n.Inks o ∧ LineMap.feedsBefore cs o = line := by
  induction f generalizing above id start a b depth closed with
  | nil => simp [uncommented, Text.inkedFrom, nodes]
  | leaf kind text rest ih =>
    have hbehind : cs = a ++ text ++ rest.text ++ b := by simp [hcs, Forest.text]
    have hrest := ih above (id + 1) hf.2 hbehind (by rw [Text.byteLength_append, hstart])
    rw [List.count_append] at hrest
    simp only [nodes, List.mem_cons, or_and_right, exists_or, exists_eq_left, ← hrest]
    cases kind with
    | comment =>
      have hfeed : text.count '\n' = 0 := List.count_eq_zero_of_not_mem hf.1.2.1
      simp [uncommented, Node.Inks, hfeed]
    | blank =>
      rw [uncommented, if_neg Terminal.noConfusion, Text.inkedFrom_append,
        Text.inkedFrom_blanks hf.1.2.1]
      simp [Node.Inks]
    | token =>
      have hink : ∀ c ∈ text, Text.isBlank c = false := by
        rcases hf.1 with ⟨rfl, -⟩ | ⟨-, hchars, -⟩
        · exact List.forall_mem_singleton.mpr (by decide)
        · exact fun c hc => (hchars c hc).1
      have hhere : cs = a ++ text ++ (rest.text ++ b) := by simp [hcs, Forest.text]
      have hword := mem_inkedFrom_word line hhere hink
      rw [uncommented, if_neg Terminal.noConfusion, Text.inkedFrom_append, List.mem_append, hword,
        hstart]
      simp only [Node.Inks, Node.Covers, Node.stop, Node.width, and_assoc]
  | bracket closed' inner rest ihi ihr =>
    have hopened : cs = a ++ ['('] ++ (inner.text ++ closer closed' ++ rest.text ++ b) := by
      simp [hcs, Forest.text]
    have hinside : cs = a ++ ['('] ++ inner.text ++ (closer closed' ++ rest.text ++ b) := by
      simp [hcs, Forest.text]
    have hclosed : cs = a ++ ['('] ++ inner.text ++ closer closed' ++ (rest.text ++ b) := by
      simp [hcs, Forest.text]
    have hbehind : cs = a ++ ['('] ++ inner.text ++ closer closed' ++ rest.text ++ b := by
      simp [hcs, Forest.text]
    have hinnerAt : Text.byteLength (a ++ ['(']) = start + 1 := by
      rw [Text.byteLength_append, hstart]
      rfl
    have hcloserAt : Text.byteLength (a ++ ['('] ++ inner.text) = start + 1 + inner.width := by
      rw [Text.byteLength_append, hinnerAt, width_eq]
    have hrestAt : Text.byteLength (a ++ ['('] ++ inner.text ++ closer closed') =
        start + 1 + inner.width + (closer closed').length := by
      rw [Text.byteLength_append, hcloserAt, Tree.byteLength_closer]
    have hcloser : ∀ c ∈ closer closed', Text.isBlank c = false := by
      cases closed' with
      | true => exact List.forall_mem_singleton.mpr (by decide)
      | false => exact List.forall_mem_nil _
    -- the four parts of the text, each on its lines
    have hleft := mem_inkedFrom_word line hopened (List.forall_mem_singleton.mpr (by decide))
    have hinner := ihi (id :: above) (id + 1) hf.1 hinside hinnerAt
    have hright := mem_inkedFrom_word line hclosed hcloser
    have hrest := ihr above (id + 1 + inner.size) hf.2 hbehind hrestAt
    have hopen : Text.byteLength ['('] = 1 := rfl
    rw [hstart, hopen] at hleft
    rw [hcloserAt, Tree.byteLength_closer] at hright
    simp only [List.count_append, Nat.add_assoc] at hleft hinner hright hrest
    simp only [uncommented_bracket, Text.inkedFrom_append, List.mem_append, List.count_append,
      count_uncommented hf.1, Nat.add_assoc, hleft, hinner, hright, hrest, mem_nodes_bracket,
      inks_bracket, or_and_right, exists_or, exists_eq_left, and_assoc]
    exact (or_congr_left or_right_comm).trans or_assoc

end Forest

/-! ## Steps of a plan -/

def Tree.Inked (t : Tree) (offset : Nat) : Prop := ∃ n ∈ t.nodes, n.Inks offset

def Tree.Veiled (t : Tree) (offset : Nat) : Prop := ∃ n ∈ t.nodes, n.Veils offset

namespace Tree

variable {cs : List Char}

theorem inked_iff (cs : List Char) (offset : Nat) :
    (ofText cs).Inked offset ↔
      offset < Text.byteLength cs ∧ ¬ (ofText cs).Veiled offset := by
  have hinks : ¬ (ofText cs).root.Inks offset := id
  have hveils : ¬ (ofText cs).root.Veils offset := by
    rintro ⟨hkind | hkind, -⟩
    · cases hkind
    · cases hkind
  have hwidth : (ofText cs).forest.width = Text.byteLength cs := by
    rw [Forest.width_eq]
    exact congrArg Text.byteLength (Forest.text_ofText cs)
  simp only [Inked, Veiled, nodes_eq, List.mem_cons, or_and_right, exists_or, exists_eq_left, hinks,
    hveils, false_or]
  by_cases hlt : offset < Text.byteLength cs
  · rw [Forest.exists_inks_iff (Nat.zero_le _) (by rw [hwidth]; omega), and_iff_right hlt]
  · have hout : offset < 0 ∨ 0 + (ofText cs).forest.width ≤ offset := by omega
    have hnone := (ofText cs).forest.nothing_outside [0] 1 hout
    exact iff_of_false hnone.1 fun h => hlt h.1

theorem Inked.exists_positionOf {offset : Nat} (h : (ofText cs).Inked offset) :
    ∃ p, (Locator.ofText cs).positionOf offset = .ok p := by
  have hlt := ((inked_iff cs offset).mp h).1
  exact Locator.exists_positionOf_iff.mpr (Nat.le_of_lt hlt)

/-- The lines on which what is left of a text has its characters are the lines of the bytes of its
tokens and brackets. -/
theorem mem_inkedFrom_root (hsize : Text.byteLength cs < UInt32.size) (line : Nat) :
    line ∈ Text.inkedFrom 0 (ofText cs).root.uncommented ↔
      ∃ o p, (ofText cs).Inked o ∧ (Locator.ofText cs).positionOf o = .ok p ∧
        p.line.toNat = line := by
  have hcs : cs = [] ++ (ofText cs).forest.text ++ [] := by
    rw [List.nil_append, List.append_nil]
    exact (Forest.text_ofText cs).symm
  have hforest := Forest.mem_inkedFrom_uncommented line [0] 1 (Forest.fits_ofText cs) hcs rfl
  refine hforest.trans ⟨?_, ?_⟩
  · intro h
    obtain ⟨n, hn, o, hinks, hline⟩ := h
    have hmem : n ∈ (ofText cs).nodes := by
      rw [nodes_eq]
      exact List.mem_cons_of_mem _ hn
    have hinked : (ofText cs).Inked o := ⟨n, hmem, hinks⟩
    obtain ⟨p, hp⟩ := hinked.exists_positionOf
    exact ⟨o, p, hinked, hp, (Locator.line_of_positionOf hsize hp).trans hline⟩
  · intro h
    obtain ⟨o, p, ⟨n, hn, hinks⟩, hp, hline⟩ := h
    rw [nodes_eq] at hn
    rcases List.mem_cons.mp hn with rfl | hn
    · cases hinks
    · exact ⟨n, hn, o, hinks, (Locator.line_of_positionOf hsize hp).symm.trans hline⟩

end Tree

namespace Reader

/-- What is recognized as a plan or as happenings is so with all that is read of it. -/
theorem schedule_of_recognized {s : Source} {content : Content}
    (h : plan.read s = .ok (.recognized content)) :
    content = .plan (Schedule.read s.tree) ∨ content = .happenings (Schedule.read s.tree) := by
  simp only [plan, scheduleVerdict, Except.ok.injEq] at h
  split at h
  · cases h
  · split at h
    · cases h
      exact .inl rfl
    · cases h
      exact .inr rfl
    · split at h
      · cases h
        exact .inl rfl
      · cases h

/-- Steps are counted by lines of the text. If a text is recognized as a plan or as happenings, the
number of steps is that of the lines, each counted once, on which the locator of the text finds a
byte of a token or of a bracket. It finds them all, and they are the bytes that are neither in a
blank nor in a comment. -/
theorem steps_are_inked_lines (cs : List Char) (s : Source) (content : Content)
    (hsize : Text.byteLength cs < UInt32.size) (htree : s.tree = Tree.ofText cs)
    (hread : plan.read s = .ok (.recognized content)) :
    ∃ schedule, (content = .plan schedule ∨ content = .happenings schedule) ∧
      (∃ lines : List Nat, lines.Nodup ∧ schedule.steps = lines.length ∧
        ∀ line, line ∈ lines ↔ ∃ o p, s.tree.Inked o ∧
          (Locator.ofText cs).positionOf o = .ok p ∧ p.line.toNat = line) ∧
      (∀ o, s.tree.Inked o → ∃ p, (Locator.ofText cs).positionOf o = .ok p) ∧
      ∀ o, s.tree.Inked o ↔ o < Text.byteLength cs ∧ ¬ s.tree.Veiled o := by
  refine ⟨Schedule.read s.tree, schedule_of_recognized hread, ?_, ?_, ?_⟩
  · refine ⟨(Text.inkedFrom 0 s.tree.root.uncommented).dedup, List.nodup_dedup _,
      (Text.length_dedup_inkedFrom 0 _).symm, fun line => ?_⟩
    rw [List.mem_dedup, htree]
    exact Tree.mem_inkedFrom_root hsize line
  · rw [htree]
    exact fun o h => h.exists_positionOf
  · rw [htree]
    exact Tree.inked_iff cs

/-- Two steps on one line, a line with a comment only, a line separator, a carriage return by itself
and a bracket that is closed on the last line, which has no line feed. -/
theorem three_lines_are_three_steps :
    let cs := "(a) (b)\r\n ;c\n\u2028(d\r e\n)".toList
    let s : Source := ⟨"p.plan", 1, .plan, Tree.ofText cs, Locator.ofText cs⟩
    ∃ schedule, plan.read s = .ok (.recognized (.plan schedule)) ∧ schedule.steps = 3 ∧
      ∃ lines : List Nat, lines.Nodup ∧ lines.length = 3 ∧
        ∀ line, line ∈ lines ↔ ∃ o p, s.tree.Inked o ∧
          (Locator.ofText cs).positionOf o = .ok p ∧ p.line.toNat = line := by
  intro cs s
  have hread : plan.read s = .ok (.recognized (.plan (Schedule.read s.tree))) := by
    have hbegins : ¬ Schedule.beginsWithDefinition s.tree = true := by decide +kernel
    show Except.ok (if Schedule.beginsWithDefinition s.tree then _ else _) = _
    rw [if_neg hbegins]
    rfl
  have hsteps : (Schedule.read s.tree).steps = 3 := by decide +kernel
  obtain ⟨schedule, hcontent, ⟨lines, hnodup, hlength, hlines⟩, -⟩ :=
    steps_are_inked_lines cs s _ (by decide) rfl hread
  obtain rfl : Schedule.read s.tree = schedule := by
    rcases hcontent with hcontent | hcontent
    · exact Content.plan.inj hcontent
    · cases hcontent
  exact ⟨_, hread, hsteps, lines, hnodup, hlength.symm.trans hsteps, hlines⟩

end Reader

end Pddl
