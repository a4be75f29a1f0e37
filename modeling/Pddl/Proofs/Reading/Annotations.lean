/-
  Pddl.Proofs.Reading.Annotations — what the comments of a plan say.

  A comment that names a domain or a problem is written in a fixed way, with gaps for blanks
  (`Annotation.Names`). It is read from the left, one part after the other, and no part can be taken
  for the next: a gap is blank, and what follows it is not.
  - `ofComment?_eq_some_iff`: a comment is read if and only if it is written so, and gives its field
    and its value;
  - `first?_eq_some_iff`, `first?_eq_none_iff`: of several comments the first for a field decides;
  - `first_annotation_wins`: for a text, the first is the one at the smallest offset, at any depth,
    and the two fields do not depend on each other.
-/

import Pddl.Schedule
import Pddl.Proofs.Syntax.Nodes
import Pddl.Proofs.Text.Runs
import Pddl.Proofs.Text.Words

namespace Pddl

def Text.Blanks (cs : List Char) : Prop := ∀ c ∈ cs, isBlank c = true

theorem Text.Unbroken.head?_append {w rest : List Char} (h : Unbroken w) :
    ∀ c ∈ (w ++ rest).head?, isBlank c = false := by
  intro c hc
  rw [List.head?_append_of_ne_nil _ h.1] at hc
  exact h.2 c (List.mem_of_mem_head? hc)

namespace Annotation

def Field.word : Field → List Char
  | domain => "domain".toList
  | problem => "problem".toList

/-- A text names a value for a field: semicolons, `!`, the word for the field in any case, `:`, and
the value, which is a whole word; gaps of blanks may stand between them, and anything behind. -/
inductive Names (field : Field) (value : List Char) : List Char → Prop
  | intro {marks gap₁ gap₂ word gap₃ gap₄ rest : List Char} :
      marks ≠ [] → (∀ c ∈ marks, c = ';') → Text.Blanks gap₁ → Text.Blanks gap₂ →
      word.map Char.toLower = field.word → Text.Blanks gap₃ → Text.Blanks gap₄ →
      Text.Unbroken value → (∀ c ∈ rest.head?, Text.isBlank c = true) →
      Names field value
        (marks ++ (gap₁ ++ '!' :: (gap₂ ++ (word ++ (gap₃ ++ ':' :: (gap₄ ++ (value ++ rest)))))))

variable {cs rest value : List Char} {field : Field} {c : Char}

/-! ## One part after the other -/

theorem expect?_eq_some_iff : expect? c cs = some rest ↔ cs = c :: rest := by
  cases cs with
  | nil => simp [expect?]
  | cons d cs =>
    by_cases hd : d = c
    · simp [expect?, hd]
    · simp [expect?, hd]

/-- Blanks are skipped up to the first character that is none. -/
theorem skipBlanks_eq_iff (hrest : ∀ c ∈ rest.head?, Text.isBlank c = false) :
    skipBlanks cs = rest ↔ ∃ gap, Text.Blanks gap ∧ cs = gap ++ rest := by
  constructor
  · rintro rfl
    refine ⟨cs.takeWhile Text.isBlank, fun c => List.mem_takeWhile_imp, ?_⟩
    exact List.takeWhile_append_dropWhile.symm
  · intro h
    obtain ⟨gap, hgap, rfl⟩ := h
    exact (Text.takeWhile_append_stop hgap hrest).2

theorem expect?_skipBlanks (hc : Text.isBlank c = false) :
    expect? c (skipBlanks cs) = some rest ↔ ∃ gap, Text.Blanks gap ∧ cs = gap ++ c :: rest := by
  rw [expect?_eq_some_iff]
  refine skipBlanks_eq_iff ?_
  rintro d ⟨⟩
  exact hc

/-- All semicolons in front are taken, and then a gap and the exclamation mark. -/
theorem marks_iff :
    (∃ behind, expect? ';' cs = some behind ∧
      expect? '!' (skipBlanks (behind.dropWhile (· == ';'))) = some rest) ↔
    ∃ marks gap, marks ≠ [] ∧ (∀ c ∈ marks, c = ';') ∧ Text.Blanks gap ∧
      cs = marks ++ (gap ++ '!' :: rest) := by
  have hmark : Text.isBlank '!' = false := by decide
  simp only [expect?_eq_some_iff (c := ';'), expect?_skipBlanks hmark]
  constructor
  · intro h
    obtain ⟨behind, rfl, gap, hgap, hdrop⟩ := h
    refine ⟨';' :: behind.takeWhile (· == ';'), gap, List.cons_ne_nil _ _, ?_, hgap, ?_⟩
    · refine List.forall_mem_cons.mpr ⟨rfl, fun c hc => ?_⟩
      simpa using List.mem_takeWhile_imp hc
    · rw [← hdrop, List.cons_append, List.takeWhile_append_dropWhile]
  · intro h
    obtain ⟨marks, gap, hne, hmarks, hgap, rfl⟩ := h
    obtain ⟨m, marks, rfl⟩ := List.exists_cons_of_ne_nil hne
    obtain ⟨rfl, hmarks⟩ := List.forall_mem_cons.mp hmarks
    refine ⟨marks ++ (gap ++ '!' :: rest), rfl, gap, hgap, ?_⟩
    refine (Text.takeWhile_append_stop (by simpa using hmarks) fun c hc => ?_).2
    -- a semicolon is neither blank nor the exclamation mark
    cases gap with
    | nil =>
      cases hc
      decide
    | cons d gap =>
      obtain rfl : d = c := Option.some.inj hc
      have hblank : Text.isBlank d = true := hgap d List.mem_cons_self
      rw [beq_eq_false_iff_ne]
      rintro rfl
      revert hblank
      decide

/-! ## The word for the field -/

theorem toLower_of_isBlank (h : Text.isBlank c = true) : c.toLower = c := by
  rcases Text.toLower_cases c with e | ⟨hA, hZ, -⟩
  · exact e
  · simp only [Text.isBlank, Bool.or_eq_true, Bool.and_eq_true, decide_eq_true_eq, beq_iff_eq] at h
    omega

theorem expectWord?_eq_some_iff {word : List Char} :
    expectWord? word cs = some rest ↔ ∃ w, w.map Char.toLower = word ∧ cs = w ++ rest := by
  rw [expectWord?, Option.ite_none_right_eq_some, Option.some.injEq]
  constructor
  · intro h
    obtain ⟨hword, rfl⟩ := h
    exact ⟨cs.take word.length, hword, (List.take_append_drop _ _).symm⟩
  · intro h
    obtain ⟨w, rfl, rfl⟩ := h
    simp

/-- No text begins with both words. -/
theorem expectWord?_problem_eq_none (h : expectWord? Field.domain.word cs = some rest) :
    expectWord? Field.problem.word cs = none := by
  obtain ⟨w, hw, rfl⟩ := expectWord?_eq_some_iff.mp h
  refine Option.eq_none_iff_forall_ne_some.mpr fun rest' h' => ?_
  obtain ⟨w', hw', heq⟩ := expectWord?_eq_some_iff.mp h'
  have hhead := congrArg (fun cs => (cs.map Char.toLower).head?) heq
  simp only [List.map_append, hw, hw'] at hhead
  rw [List.head?_append_of_ne_nil _ (by decide), List.head?_append_of_ne_nil _ (by decide)] at hhead
  exact absurd hhead (by decide)

theorem field?_eq_some_iff :
    field? cs = some (field, rest) ↔ expectWord? field.word cs = some rest := by
  have hdomainWord : "domain".toList = Field.domain.word := rfl
  have hproblemWord : "problem".toList = Field.problem.word := rfl
  rw [field?, hdomainWord, hproblemWord]
  cases hdomain : expectWord? Field.domain.word cs with
  | some behind =>
    have hproblem := expectWord?_problem_eq_none hdomain
    cases field with
    | domain => simp [hdomain]
    | problem => simp [hproblem]
  | none =>
    cases hproblem : expectWord? Field.problem.word cs with
    | some behind =>
      cases field with
      | domain => simp [hdomain]
      | problem => simp [hproblem]
    | none =>
      cases field with
      | domain => simp [hdomain]
      | problem => simp [hproblem]

theorem unbroken_of_word {w : List Char} (h : w.map Char.toLower = field.word) :
    Text.Unbroken w := by
  have hword : field.word ≠ [] ∧ field.word.all (!Text.isBlank ·) = true := by
    cases field with
    | domain => decide
    | problem => decide
  rw [← h] at hword
  refine ⟨fun hnil => hword.1 (by rw [hnil]; rfl), fun c hc => ?_⟩
  by_contra hblank
  have hlower : c.toLower = c := toLower_of_isBlank (by simpa using hblank)
  have hnot := List.all_eq_true.mp hword.2 c.toLower (List.mem_map_of_mem hc)
  simp [hlower, hblank] at hnot

theorem field?_skipBlanks :
    field? (skipBlanks cs) = some (field, rest) ↔
      ∃ gap w, Text.Blanks gap ∧ w.map Char.toLower = field.word ∧ cs = gap ++ (w ++ rest) := by
  rw [field?_eq_some_iff, expectWord?_eq_some_iff]
  constructor
  · intro h
    obtain ⟨w, hw, hskip⟩ := h
    obtain ⟨gap, hgap, rfl⟩ := (skipBlanks_eq_iff (unbroken_of_word hw).head?_append).mp hskip
    exact ⟨gap, w, hgap, hw, rfl⟩
  · intro h
    obtain ⟨gap, w, hgap, hw, rfl⟩ := h
    exact ⟨w, hw, (skipBlanks_eq_iff (unbroken_of_word hw).head?_append).mpr ⟨gap, hgap, rfl⟩⟩

/-! ## The value, and the whole comment -/

theorem value_iff :
    (skipBlanks cs).takeWhile (!Text.isBlank ·) = value ∧ value ≠ [] ↔
      ∃ gap rest, Text.Blanks gap ∧ Text.Unbroken value ∧
        (∀ c ∈ rest.head?, Text.isBlank c = true) ∧ cs = gap ++ (value ++ rest) := by
  constructor
  · intro h
    obtain ⟨rfl, hne⟩ := h
    refine ⟨cs.takeWhile Text.isBlank, (skipBlanks cs).dropWhile (!Text.isBlank ·),
      ?_, ⟨hne, ?_⟩, ?_, ?_⟩
    · exact fun c => List.mem_takeWhile_imp
    · intro c hc
      simpa using List.mem_takeWhile_imp hc
    · intro c hc
      simpa using Text.head?_dropWhile c hc
    · rw [List.takeWhile_append_dropWhile, skipBlanks, List.takeWhile_append_dropWhile]
  · intro h
    obtain ⟨gap, rest, hgap, hvalue, hrest, rfl⟩ := h
    have hskip : skipBlanks (gap ++ (value ++ rest)) = value ++ rest :=
      (skipBlanks_eq_iff hvalue.head?_append).mpr ⟨gap, hgap, rfl⟩
    rw [hskip]
    refine ⟨(Text.takeWhile_append_stop ?_ ?_).1, hvalue.1⟩
    · simpa using hvalue.2
    · simpa using hrest

/-- A comment is read if and only if it names a value for a field. -/
theorem ofComment?_eq_some_iff :
    ofComment? cs = some ⟨field, String.ofList value⟩ ↔ Names field value cs := by
  have hcolon : Text.isBlank ':' = false := by decide
  simp only [ofComment?, Option.bind_eq_bind, Option.bind_eq_some_iff, Prod.exists,
    Option.ite_none_left_eq_some, Option.some.injEq, Annotation.mk.injEq, String.ofList_inj]
  constructor
  · intro h
    obtain ⟨behind, hsemi, rest₁, hmark, field', rest₂, hfield, rest₃, hsign, hne, rfl, hval⟩ := h
    obtain ⟨marks, gap₁, hmarks, hall, hgap₁, rfl⟩ := marks_iff.mp ⟨behind, hsemi, hmark⟩
    obtain ⟨gap₂, word, hgap₂, hword, rfl⟩ := field?_skipBlanks.mp hfield
    obtain ⟨gap₃, hgap₃, rfl⟩ := (expect?_skipBlanks hcolon).mp hsign
    obtain ⟨gap₄, rest, hgap₄, hvalue, hrest, rfl⟩ := value_iff.mp ⟨hval, by simpa [hval] using hne⟩
    exact .intro hmarks hall hgap₁ hgap₂ hword hgap₃ hgap₄ hvalue hrest
  · intro h
    obtain ⟨hmarks, hall, hgap₁, hgap₂, hword, hgap₃, hgap₄, hvalue, hrest⟩ := h
    obtain ⟨behind, hsemi, hmark⟩ := marks_iff.mpr ⟨_, _, hmarks, hall, hgap₁, rfl⟩
    obtain ⟨hval, hne⟩ := value_iff.mpr ⟨_, _, hgap₄, hvalue, hrest, rfl⟩
    refine ⟨behind, hsemi, _, hmark,
      field, _, field?_skipBlanks.mpr ⟨_, _, hgap₂, hword, rfl⟩,
      _, (expect?_skipBlanks hcolon).mpr ⟨_, hgap₃, rfl⟩, ?_, rfl, hval⟩
    simpa [hval] using hne

def valueOf? (field : Field) (cs : List Char) : Option String :=
  (ofComment? cs).bind fun a => if a.field = field then some a.value else none

theorem valueOf?_eq_some_iff {x : String} :
    valueOf? field cs = some x ↔ Names field x.toList cs := by
  rw [← ofComment?_eq_some_iff, String.ofList_toList, valueOf?, Option.bind_eq_some_iff]
  constructor
  · intro h
    obtain ⟨a, ha, hx⟩ := h
    obtain ⟨rfl, rfl⟩ : a.field = field ∧ a.value = x := by simpa using hx
    exact ha
  · intro ha
    exact ⟨_, ha, if_pos rfl⟩

theorem valueOf?_eq_none_iff : valueOf? field cs = none ↔ ∀ y, ¬ Names field y cs := by
  simp only [Option.eq_none_iff_forall_ne_some, ne_eq, valueOf?_eq_some_iff]
  refine ⟨fun h y => ?_, fun h x => h x.toList⟩
  have hy := h (String.ofList y)
  rwa [String.toList_ofList] at hy

end Annotation

/-! ## The first of several comments -/

namespace Solved

variable {field : Annotation.Field} {ns : List Node} {x : String}

def value? (s : Solved) : Annotation.Field → Option String
  | .domain => s.domain?
  | .problem => s.problem?

theorem value?_read (t : Tree) (field : Annotation.Field) :
    (read t).value? field =
      first? field (t.root.comments.filterMap fun n => Annotation.ofComment? n.text) := by
  cases field with
  | domain => rfl
  | problem => rfl

/-- Comments are asked one after the other, and those for the other field have no say. -/
theorem first?_filterMap :
    first? field (ns.filterMap fun n => Annotation.ofComment? n.text) =
      ns.findSome? fun n => Annotation.valueOf? field n.text := by
  induction ns with
  | nil => rfl
  | cons n ns ih =>
    rw [List.filterMap_cons, List.findSome?_cons, ← ih, Annotation.valueOf?]
    cases Annotation.ofComment? n.text with
    | none => rfl
    | some a =>
      by_cases ha : a.field = field
      · simp [first?, ha]
      · simp [first?, ha]

theorem first?_eq_some_iff :
    first? field (ns.filterMap fun n => Annotation.ofComment? n.text) = some x ↔
      ∃ before c after, ns = before ++ c :: after ∧ Annotation.Names field x.toList c.text ∧
        ∀ m ∈ before, ∀ y, ¬ Annotation.Names field y m.text := by
  simp only [first?_filterMap, List.findSome?_eq_some_iff, Annotation.valueOf?_eq_some_iff,
    Annotation.valueOf?_eq_none_iff]

theorem first?_eq_none_iff :
    first? field (ns.filterMap fun n => Annotation.ofComment? n.text) = none ↔
      ∀ c ∈ ns, ∀ y, ¬ Annotation.Names field y c.text := by
  simp only [first?_filterMap, List.findSome?_eq_none_iff, Annotation.valueOf?_eq_none_iff]

end Solved

/-! ## The comments of a text -/

/-- Where nodes stand in order, nothing in front of a node has a property if and only if what has it
does not start before the node. -/
theorem Node.none_before_iff {p : Node → Prop} {before after : List Node} {c : Node}
    (h : (before ++ c :: after).Pairwise (·.start < ·.start)) :
    (∀ m ∈ before, ¬ p m) ↔ ∀ m ∈ before ++ c :: after, p m → c.start ≤ m.start := by
  obtain ⟨-, hc, hbefore⟩ := List.pairwise_append.mp h
  constructor
  · intro hnone m hm hp
    rcases List.mem_append.mp hm with hm | hm
    · exact absurd hp (hnone m hm)
    · rcases List.mem_cons.mp hm with rfl | hm
      · exact le_rfl
      · exact ((List.pairwise_cons.mp hc).1 m hm).le
  · intro hfirst m hm hp
    have hlt := hbefore m hm c List.mem_cons_self
    have hle := hfirst m (List.mem_append_left _ hm) hp
    omega

/-- The comment of a tree that names `value` for a field, where no comment in front of it names
anything for the field. -/
structure Tree.FirstToName (t : Tree) (field : Annotation.Field) (value : String) (c : Node) :
    Prop where
  mem : c ∈ t.nodes
  comment : c.isComment = true
  names : Annotation.Names field value.toList c.text
  first : ∀ m ∈ t.nodes, m.isComment = true → ∀ y, Annotation.Names field y m.text →
    c.start ≤ m.start

theorem Tree.mem_comments_root {t : Tree} {n : Node} :
    n ∈ t.root.comments ↔ n ∈ t.nodes ∧ n.isComment = true := by
  rw [Node.comments, List.mem_filter, Tree.nodes, List.mem_cons]
  refine and_congr_left fun hn => (or_iff_right ?_).symm
  rintro rfl
  cases hn

theorem Tree.comments_increasing (cs : List Char) :
    (Tree.ofText cs).root.comments.Pairwise (·.start < ·.start) := by
  rw [Node.comments, Node.descendants_eq]
  exact (Forest.starts_increasing (Forest.filled_ofText cs)).filter _

/-- For each field, a document says what the first of its comments to name something for the field
says, and nothing where no comment does. -/
theorem Solved.first_annotation_wins (cs : List Char) (field : Annotation.Field) :
    (∀ x, (Solved.read (Tree.ofText cs)).value? field = some x ↔
      ∃ c, (Tree.ofText cs).FirstToName field x c) ∧
    ((Solved.read (Tree.ofText cs)).value? field = none ↔
      ∀ c ∈ (Tree.ofText cs).nodes, c.isComment = true →
        ∀ y, ¬ Annotation.Names field y c.text) := by
  have hcomments {n : Node} := Tree.mem_comments_root (t := Tree.ofText cs) (n := n)
  have hordered := Tree.comments_increasing cs
  rw [value?_read]
  generalize (Tree.ofText cs).root.comments = ns at hcomments hordered
  refine ⟨fun x => first?_eq_some_iff.trans ⟨?_, ?_⟩, first?_eq_none_iff.trans ?_⟩
  · intro h
    obtain ⟨before, c, after, rfl, hnames, hbefore⟩ := h
    obtain ⟨hmem, hcomment⟩ := hcomments.mp (List.mem_append_right before List.mem_cons_self)
    refine ⟨c, hmem, hcomment, hnames, fun m hm hm' y hy => ?_⟩
    have hnone : ∀ m ∈ before, ¬ ∃ y, Annotation.Names field y m.text := by simpa using hbefore
    exact (Node.none_before_iff hordered).mp hnone m (hcomments.mpr ⟨hm, hm'⟩) ⟨y, hy⟩
  · intro h
    obtain ⟨c, hmem, hcomment, hnames, hfirst⟩ := h
    obtain ⟨before, after, rfl⟩ := List.append_of_mem (hcomments.mpr ⟨hmem, hcomment⟩)
    have hnone : ∀ m ∈ before, ¬ ∃ y, Annotation.Names field y m.text := by
      refine (Node.none_before_iff hordered).mpr fun m hm ⟨y, hy⟩ => ?_
      exact hfirst m (hcomments.mp hm).1 (hcomments.mp hm).2 y hy
    exact ⟨before, c, after, rfl, hnames, fun m hm y hy => hnone m hm ⟨y, hy⟩⟩
  · simp only [hcomments, and_imp]

example : Solved.read (Tree.ofText "(a ;!domain d\n;; ! DOMAIN : e f\n);!domain:g".toList) =
    ⟨some "e", none⟩ := by decide +kernel

end Pddl
