/-
  Pddl.Proofs.Syntax.Segmentation — where the pieces of a text begin and end.

  What each kind of piece is, and what may follow it, are conditions on the piece and on the text
  behind it (`Fits`). A sequence of pieces that make up a text and all fit is a segmentation of
  it (`IsSegmentation`). There is one for every text, and only one:
  - `segments_settle_lexemes`: the pieces that are read from the left fit;
  - `lexemes_of_fits`: a piece that fits in front of a text is the first that is read;
  - `pieces_ofText`: the terminals and brackets of the tree in the order of their offsets are the
    pieces read;
  - `one_segmentation`: so they are the only segmentation.
-/

import Mathlib.Data.List.Sort
import Pddl.Proofs.Syntax.Scan
import Pddl.Proofs.Text.Runs

namespace Pddl

namespace Lexeme

/-- A comment stops in front of a text: at the end, at a carriage return with its line feed, or at
a line feed whose carriage return is not left in the comment. -/
def StopsBefore (text rest : List Char) : Prop :=
  rest = [] ∨ (∃ tail, rest = '\r' :: '\n' :: tail) ∨
    ((∃ tail, rest = '\n' :: tail) ∧ text.getLast? ≠ some '\r')

/-- What a piece is at a depth and in front of a text. A closing bracket is a token at depth zero,
and a delimiter at any other. -/
def Fits (depth : Nat) (rest : List Char) : Lexeme → Prop
  | opening => True
  | closing => 0 < depth
  | terminal .blank text =>
    text ≠ [] ∧ (∀ c ∈ text, Text.isBlank c = true) ∧ ∀ c ∈ rest.head?, Text.isBlank c = false
  | terminal .comment text => text.head? = some ';' ∧ '\n' ∉ text ∧ StopsBefore text rest
  | terminal .token text =>
    (text = [')'] ∧ depth = 0) ∨
    (text ≠ [] ∧ (∀ c ∈ text, Text.isBlank c = false ∧ c ≠ '(' ∧ c ≠ ')') ∧
      text.head? ≠ some ';' ∧ ∀ c ∈ rest.head?, Text.isBlank c = true ∨ c = '(' ∨ c = ')')

def Segments (depth : Nat) : List Lexeme → Prop
  | [] => True
  | piece :: ls => piece.Fits depth (ls.flatMap text) ∧ Segments (piece.depthAfter depth) ls

def IsSegmentation (cs : List Char) (ls : List Lexeme) : Prop :=
  ls.flatMap text = cs ∧ Segments 0 ls

/-! ## Comments -/

theorem endsComment_iff (cs : List Char) :
    endsComment cs = true ↔
      (∃ tail, cs = '\n' :: tail) ∨ ∃ tail, cs = '\r' :: '\n' :: tail := by
  unfold endsComment
  split <;> simp_all

theorem lf_not_mem_commentBody (cs : List Char) : '\n' ∉ commentBody cs := by
  induction cs with
  | nil => simp [commentBody]
  | cons c cs ih =>
    unfold commentBody
    split
    · simp
    · rename_i h
      have hc : c ≠ '\n' := by
        rintro rfl
        exact h rfl
      simp [hc.symm, ih]

/-- A comment stops where the text behind it says. -/
theorem stopsBefore_afterComment (cs : List Char) :
    StopsBefore (commentBody cs) (afterComment cs) := by
  induction cs with
  | nil => exact .inl rfl
  | cons c cs ih =>
    by_cases h : endsComment (c :: cs) = true
    · rw [commentBody, afterComment, if_pos h, if_pos h]
      rcases (endsComment_iff _).mp h with hlf | hcrlf
      · exact .inr (.inr ⟨hlf, by simp⟩)
      · exact .inr (.inl hcrlf)
    · rw [commentBody, afterComment, if_neg h, if_neg h]
      rcases ih with hend | hcrlf | ⟨hlf, hlast⟩
      · exact .inl hend
      · exact .inr (.inl hcrlf)
      · refine .inr (.inr ⟨hlf, ?_⟩)
        intro hcr
        rw [List.getLast?_cons, Option.some.injEq] at hcr
        cases hb : (commentBody cs).getLast? with
        | some d =>
          rw [hb] at hcr hlast
          exact hlast (congrArg some hcr)
        | none =>
          -- the comment would have stopped in front of this very character
          rw [hb] at hcr
          obtain ⟨tail, htail⟩ := hlf
          have hcs := commentBody_append_afterComment cs
          rw [List.getLast?_eq_none_iff.mp hb, htail, List.nil_append] at hcs
          exact h ((endsComment_iff _).mpr (.inr ⟨tail, by rw [← hcs, ← hcr]; rfl⟩))

theorem StopsBefore.tail {c : Char} {body rest : List Char} (h : StopsBefore (c :: body) rest) :
    StopsBefore body rest := by
  rcases h with hend | hcrlf | ⟨hlf, hlast⟩
  · exact .inl hend
  · exact .inr (.inl hcrlf)
  · refine .inr (.inr ⟨hlf, fun hb => hlast ?_⟩)
    rw [List.getLast?_cons, hb]
    rfl

theorem StopsBefore.cons {c : Char} {body rest : List Char} (hc : c ≠ '\r')
    (h : StopsBefore body rest) : StopsBefore (c :: body) rest := by
  rcases h with hend | hcrlf | ⟨hlf, hlast⟩
  · exact .inl hend
  · exact .inr (.inl hcrlf)
  · refine .inr (.inr ⟨hlf, ?_⟩)
    rw [List.getLast?_cons]
    cases hb : body.getLast? with
    | none => simpa using hc
    | some d =>
      rw [hb] at hlast
      exact hlast

/-- A comment takes a text up to where it stops. -/
theorem commentBody_append {body rest : List Char} (hlf : '\n' ∉ body)
    (hstop : StopsBefore body rest) :
    commentBody (body ++ rest) = body ∧ afterComment (body ++ rest) = rest := by
  induction body with
  | nil =>
    rcases hstop with rfl | ⟨tail, rfl⟩ | ⟨⟨tail, rfl⟩, -⟩ <;> exact ⟨rfl, rfl⟩
  | cons c body ih =>
    obtain ⟨hc, hbody⟩ := not_or.mp (List.mem_cons.not.mp hlf)
    have hgoes : ¬ endsComment (c :: (body ++ rest)) = true := by
      rw [endsComment_iff]
      rintro (⟨tail, ht⟩ | ⟨tail, ht⟩)
      · cases ht
        exact hc rfl
      · cases body with
        | cons d body =>
          cases ht
          exact hbody List.mem_cons_self
        | nil =>
          cases ht
          rcases hstop with hnil | ⟨_, hcr⟩ | ⟨-, hlast⟩
          · cases hnil
          · cases hcr
          · exact hlast rfl
    obtain ⟨hb, ha⟩ := ih hbody hstop.tail
    rw [List.cons_append, commentBody, afterComment, if_neg hgoes, if_neg hgoes]
    exact ⟨congrArg (c :: ·) hb, ha⟩

/-! ## The pieces read from the left fit -/

theorem depthAfter_settled (depth : Nat) (piece : Lexeme) :
    (piece.settled depth).depthAfter depth = piece.depthAfter depth := by
  unfold settled
  split
  · rename_i h
    rw [h.1, h.2]
    rfl
  · rfl

theorem text_settle (depth : Nat) (ls : List Lexeme) :
    (settle depth ls).flatMap text = ls.flatMap text := by
  induction ls generalizing depth with
  | nil => rfl
  | cons piece ls ih => rw [settle, List.flatMap_cons, text_settled, ih, List.flatMap_cons]

theorem isTokenChar_iff (c : Char) :
    isTokenChar c = true ↔ Text.isBlank c = false ∧ c ≠ '(' ∧ c ≠ ')' := by
  simp [isTokenChar, and_assoc]

theorem fits_closing (depth : Nat) (rest : List Char) :
    (closing.settled depth).Fits depth rest := by
  unfold settled
  split
  · rename_i h
    exact .inl ⟨rfl, h.2⟩
  · rename_i h
    exact Nat.pos_of_ne_zero fun hd => h ⟨rfl, hd⟩

theorem fits_blank {c : Char} (hc : Text.isBlank c = true) (depth : Nat) (cs : List Char) :
    (terminal .blank (c :: cs.takeWhile Text.isBlank)).Fits depth (cs.dropWhile Text.isBlank) :=
  ⟨List.cons_ne_nil _ _,
    List.forall_mem_cons.mpr ⟨hc, fun _ hd => List.mem_takeWhile_imp hd⟩, Text.head?_dropWhile⟩

theorem fits_comment (depth : Nat) (cs : List Char) :
    (terminal .comment (';' :: commentBody cs)).Fits depth (afterComment cs) := by
  refine ⟨rfl, ?_, ?_⟩
  · simp [lf_not_mem_commentBody]
  · exact (stopsBefore_afterComment cs).cons (by decide)

theorem fits_token {c : Char} (ho : c ≠ '(') (hc : c ≠ ')') (hs : c ≠ ';')
    (hb : ¬ Text.isBlank c = true) (depth : Nat) (cs : List Char) :
    (terminal .token (c :: cs.takeWhile isTokenChar)).Fits depth (cs.dropWhile isTokenChar) := by
  refine .inr ⟨List.cons_ne_nil _ _, List.forall_mem_cons.mpr ⟨⟨by simpa using hb, ho, hc⟩, ?_⟩,
    by simpa using hs, ?_⟩
  · intro d hd
    exact (isTokenChar_iff d).mp (List.mem_takeWhile_imp hd)
  · intro d hd
    have hnot := Text.head?_dropWhile d hd
    simp [isTokenChar] at hnot
    grind

/-- The pieces read from the left are a segmentation, from any depth on. -/
theorem segments_settle_lexemes (cs : List Char) (depth : Nat) :
    Segments depth (settle depth (lexemes cs)) := by
  fun_induction lexemes cs generalizing depth with
  | case1 => trivial
  | case2 cs ih =>
    refine ⟨trivial, ?_⟩
    rw [depthAfter_settled]
    exact ih _
  | case3 cs _ ih =>
    refine ⟨fits_closing _ _, ?_⟩
    rw [depthAfter_settled]
    exact ih _
  | case4 cs _ _ ih =>
    refine ⟨?_, ih _⟩
    rw [text_settle, text_lexemes]
    exact fits_comment depth cs
  | case5 c cs _ _ _ hb ih =>
    refine ⟨?_, ih _⟩
    rw [text_settle, text_lexemes]
    exact fits_blank hb depth cs
  | case6 c cs ho hc hs hb ih =>
    refine ⟨?_, ih _⟩
    rw [text_settle, text_lexemes]
    exact fits_token ho hc hs hb depth cs

/-! ## A piece that fits is the first that is read -/

theorem ne_of_isBlank {c : Char} (hb : Text.isBlank c = true) : c ≠ '(' ∧ c ≠ ')' ∧ c ≠ ';' := by
  refine ⟨?_, ?_, ?_⟩ <;>
    · rintro rfl
      revert hb
      decide

theorem lexemes_blank {c : Char} {text rest : List Char}
    (hb : ∀ d ∈ c :: text, Text.isBlank d = true)
    (hrest : ∀ d ∈ rest.head?, Text.isBlank d = false) :
    lexemes (c :: text ++ rest) = terminal .blank (c :: text) :: lexemes rest := by
  obtain ⟨hc, htext⟩ := List.forall_mem_cons.mp hb
  obtain ⟨h1, h2, h3⟩ := ne_of_isBlank hc
  obtain ⟨htake, hdrop⟩ := Text.takeWhile_append_stop htext hrest
  rw [List.cons_append, lexemes, if_neg h1, if_neg h2, if_neg h3, if_pos hc, htake, hdrop]

theorem lexemes_comment {text rest : List Char} (hlf : '\n' ∉ text)
    (hstop : StopsBefore text rest) :
    lexemes (';' :: text ++ rest) = terminal .comment (';' :: text) :: lexemes rest := by
  obtain ⟨hbody, hafter⟩ := commentBody_append hlf hstop
  have h1 : ';' ≠ '(' := by decide
  have h2 : ';' ≠ ')' := by decide
  rw [List.cons_append, lexemes, if_neg h1, if_neg h2, if_pos rfl, hbody, hafter]

theorem lexemes_token {c : Char} {text rest : List Char}
    (ht : ∀ d ∈ c :: text, Text.isBlank d = false ∧ d ≠ '(' ∧ d ≠ ')') (hs : c ≠ ';')
    (hrest : ∀ d ∈ rest.head?, Text.isBlank d = true ∨ d = '(' ∨ d = ')') :
    lexemes (c :: text ++ rest) = terminal .token (c :: text) :: lexemes rest := by
  obtain ⟨⟨hb, ho, hc⟩, htext⟩ := List.forall_mem_cons.mp ht
  have hchars : ∀ d ∈ text, isTokenChar d = true := fun d hd =>
    (isTokenChar_iff d).mpr (htext d hd)
  have hstop : ∀ d ∈ rest.head?, isTokenChar d = false := by
    intro d hd
    have := hrest d hd
    have := isTokenChar_iff d
    grind
  obtain ⟨htake, hdrop⟩ := Text.takeWhile_append_stop hchars hstop
  rw [List.cons_append, lexemes, if_neg ho, if_neg hc, if_neg hs, if_neg (by simp [hb]), htake,
    hdrop]

/-- A piece that fits in front of a text is read first, up to the difference between a token and a
closing bracket. -/
theorem lexemes_of_fits {piece : Lexeme} {depth : Nat} {rest : List Char}
    (h : piece.Fits depth rest) :
    ∃ raw, lexemes (piece.text ++ rest) = raw :: lexemes rest ∧ raw.settled depth = piece := by
  have hclosing : lexemes (')' :: rest) = closing :: lexemes rest := by
    rw [lexemes, if_neg (by decide), if_pos rfl]
  cases piece with
  | opening => exact ⟨opening, by rw [text, List.cons_append, lexemes, if_pos rfl]; rfl, rfl⟩
  | closing =>
    refine ⟨closing, hclosing, if_neg fun hc => ?_⟩
    have : 0 < depth := h
    omega
  | terminal kind text =>
    cases kind with
    | blank =>
      obtain ⟨hne, hb, hrest⟩ := h
      obtain ⟨c, text, rfl⟩ := List.exists_cons_of_ne_nil hne
      exact ⟨_, lexemes_blank hb hrest, settled_terminal _ _ _⟩
    | comment =>
      obtain ⟨hhead, hlf, hstop⟩ := h
      obtain ⟨text, rfl⟩ := List.head?_eq_some_iff.mp hhead
      exact ⟨_, lexemes_comment (fun hm => hlf (List.mem_cons_of_mem _ hm)) hstop.tail,
        settled_terminal _ _ _⟩
    | token =>
      rcases h with ⟨rfl, hdepth⟩ | ⟨hne, ht, hs, hrest⟩
      · exact ⟨closing, hclosing, if_pos ⟨rfl, hdepth⟩⟩
      · obtain ⟨c, text, rfl⟩ := List.exists_cons_of_ne_nil hne
        exact ⟨_, lexemes_token ht (by simpa using hs) hrest, settled_terminal _ _ _⟩

/-- Pieces that all fit are the ones that are read from their text. -/
theorem settle_lexemes_of_segments {ls : List Lexeme} {depth : Nat} (h : Segments depth ls) :
    settle depth (lexemes (ls.flatMap text)) = ls := by
  induction ls generalizing depth with
  | nil => simp [lexemes, settle]
  | cons piece ls ih =>
    obtain ⟨hfits, hrest⟩ := h
    obtain ⟨raw, hraw, rfl⟩ := lexemes_of_fits hfits
    rw [depthAfter_settled] at hrest
    rw [List.flatMap_cons, hraw, settle, ih hrest]

/-- A text has one segmentation: the pieces that are read from the left. -/
theorem isSegmentation_iff {cs : List Char} {ls : List Lexeme} :
    IsSegmentation cs ls ↔ ls = settle 0 (lexemes cs) := by
  constructor
  · rintro ⟨rfl, hsegments⟩
    exact (settle_lexemes_of_segments hsegments).symm
  · rintro rfl
    exact ⟨by rw [text_settle, text_lexemes], segments_settle_lexemes cs 0⟩

/-! ## Pieces with their offsets -/

def placed (offset : Nat) : List Lexeme → List (Nat × Lexeme)
  | [] => []
  | piece :: ls => (offset, piece) :: placed (offset + Text.byteLength piece.text) ls

theorem map_moments (s : Scan) (ls : List Lexeme) :
    (s.moments ls).map (fun m => (m.1.offset, m.2)) = placed s.offset ls := by
  induction ls generalizing s with
  | nil => rfl
  | cons piece ls ih =>
    rw [Scan.moments, List.map_cons, ih]
    rfl

theorem mem_placed {offset : Nat} {ls : List Lexeme} {x : Nat × Lexeme}
    (h : x ∈ placed offset ls) :
    ∃ before after, ls = before ++ x.2 :: after ∧
      x.1 = offset + Text.byteLength (before.flatMap text) := by
  induction ls generalizing offset with
  | nil => cases h
  | cons piece ls ih =>
    rcases List.mem_cons.mp h with rfl | h
    · exact ⟨[], ls, rfl, rfl⟩
    · obtain ⟨before, after, rfl, hx⟩ := ih h
      refine ⟨piece :: before, after, rfl, ?_⟩
      rw [hx, List.flatMap_cons, Text.byteLength_append, Nat.add_assoc]

/-- Each piece ends before those behind it start. -/
theorem placed_apart (offset : Nat) (ls : List Lexeme) :
    (placed offset ls).Pairwise fun x y => x.1 + Text.byteLength x.2.text ≤ y.1 := by
  induction ls generalizing offset with
  | nil => exact .nil
  | cons piece ls ih =>
    refine List.pairwise_cons.mpr ⟨fun y hy => ?_, ih _⟩
    obtain ⟨before, after, -, hoffset⟩ := mem_placed hy
    show offset + Text.byteLength piece.text ≤ y.1
    omega

theorem placed_increasing {ls : List Lexeme} (h : ∀ piece ∈ ls, piece.text ≠ []) (offset : Nat) :
    (placed offset ls).Pairwise (·.1 < ·.1) := by
  refine (placed_apart offset ls).imp_of_mem fun {x y} hx _ hxy => ?_
  obtain ⟨before, after, hls, -⟩ := mem_placed hx
  have := Text.byteLength_pos (h x.2 (by simp [hls]))
  omega

theorem Segments.drop {before after : List Lexeme} {depth : Nat}
    (h : Segments depth (before ++ after)) : ∃ depth', Segments depth' after := by
  induction before generalizing depth with
  | nil => exact ⟨depth, h⟩
  | cons piece before ih => exact ih h.2

/-- Each piece of a segmentation stands at its offset, and fits in front of what is behind it. -/
theorem IsSegmentation.fits {cs : List Char} {ls : List Lexeme} (h : IsSegmentation cs ls)
    {x : Nat × Lexeme} (hx : x ∈ placed 0 ls) :
    ∃ depth a rest, cs = a ++ x.2.text ++ rest ∧ Text.byteLength a = x.1 ∧
      x.2.Fits depth rest := by
  obtain ⟨rfl, hsegments⟩ := h
  obtain ⟨before, after, hls, hoffset⟩ := mem_placed hx
  rw [hls] at hsegments ⊢
  obtain ⟨depth, hfits, -⟩ := hsegments.drop
  refine ⟨depth, before.flatMap text, after.flatMap text, ?_, ?_, hfits⟩
  · rw [List.flatMap_append, List.flatMap_cons, List.append_assoc]
  · rw [hoffset, Nat.zero_add]

end Lexeme

/-! ## The pieces of a tree -/

/-- The pieces that a node itself is: a terminal, or its brackets. -/
def Node.pieces (n : Node) : List (Nat × Lexeme) :=
  match n.shape with
  | .document _ => []
  | .terminal kind text => [(n.start, .terminal kind text)]
  | .bracket closed _ =>
    (n.start, .opening) :: if closed then [(n.stop - 1, .closing)] else []

theorem Node.map_marks (around : List Nat → List Node) (n : Node) :
    (n.marks around).map (fun m => (m.1.offset, m.2)) = n.pieces := by
  obtain ⟨id, ancestors, start, shape⟩ := n
  cases shape with
  | document | terminal => rfl
  | bracket closed inner => cases closed <;> rfl

theorem Node.exists_text {kind : Terminal} {n : Node} (h : n.isTerminal kind = true) :
    ∃ text, n.shape = .terminal kind text := by
  obtain ⟨id, ancestors, start, shape⟩ := n
  cases shape with
  | document | bracket => cases h
  | terminal kind' text =>
    obtain rfl : kind' = kind := by simpa [isTerminal] using h
    exact ⟨text, rfl⟩

namespace Tree

def pieces (t : Tree) : List (Nat × Lexeme) :=
  (t.nodes.flatMap Node.pieces).mergeSort fun x y => x.1 ≤ y.1

theorem pieces_perm (cs : List Char) :
    ((ofText cs).nodes.flatMap Node.pieces).Perm
      (Lexeme.placed 0 (Lexeme.settle 0 (Lexeme.lexemes cs))) := by
  have hperm := (marks_perm_moments cs).map fun m => (m.1.offset, m.2)
  rw [List.map_flatMap, Scan.momentsOf, ← Scan.moments_settle, Lexeme.map_moments] at hperm
  simp only [Node.map_marks] at hperm
  exact hperm

/-- The pieces of the tree are those read from the text. -/
theorem pieces_ofText (cs : List Char) :
    (ofText cs).pieces = Lexeme.placed 0 (Lexeme.settle 0 (Lexeme.lexemes cs)) := by
  have hincreasing := Lexeme.placed_increasing
    (Lexeme.text_ne_nil_settle (Lexeme.text_ne_nil cs) 0) 0
  have hperm : (ofText cs).pieces.Perm
      (Lexeme.placed 0 (Lexeme.settle 0 (Lexeme.lexemes cs))) :=
    (List.mergeSort_perm _ _).trans (pieces_perm cs)
  have hsorted : (ofText cs).pieces.Pairwise fun x y => decide (x.1 ≤ y.1) = true := by
    apply List.pairwise_mergeSort
    · intro x y z hxy hyz
      simp only [decide_eq_true_eq] at hxy hyz ⊢
      omega
    · intro x y
      simp only [Bool.or_eq_true, decide_eq_true_eq]
      omega
  refine List.Perm.eq_of_pairwise ?_ hsorted (hincreasing.imp ?_) hperm
  · -- two pieces at one offset are one piece
    intro x y hx hy hxy hyx
    simp only [decide_eq_true_eq] at hxy hyx
    exact eq_of_increasing hincreasing (hperm.mem_iff.mp hx) hy (Nat.le_antisymm hxy hyx)
  · intro x y hxy
    simp only [decide_eq_true_eq]
    omega

theorem mem_pieces {t : Tree} {n : Node} {kind : Terminal} {text : List Char} (hn : n ∈ t.nodes)
    (hshape : n.shape = .terminal kind text) : (n.start, Lexeme.terminal kind text) ∈ t.pieces := by
  refine (List.mergeSort_perm _ _).mem_iff.mpr (List.mem_flatMap.mpr ⟨n, hn, ?_⟩)
  rw [Node.pieces, hshape]
  exact List.mem_singleton_self _

theorem isSegmentation_pieces (cs : List Char) :
    ∃ ls, (ofText cs).pieces = Lexeme.placed 0 ls ∧
      ∀ ls', Lexeme.IsSegmentation cs ls' ↔ ls' = ls :=
  ⟨_, pieces_ofText cs, fun _ => Lexeme.isSegmentation_iff⟩

/-- Of two pieces of a tree, one ends before the other starts. -/
theorem pieces_apart {cs : List Char} {x y : Nat × Lexeme} (hx : x ∈ (ofText cs).pieces)
    (hy : y ∈ (ofText cs).pieces) (hne : x ≠ y) :
    x.1 + Text.byteLength x.2.text ≤ y.1 ∨ y.1 + Text.byteLength y.2.text ≤ x.1 := by
  obtain ⟨ls, hls, -⟩ := isSegmentation_pieces cs
  rw [hls] at hx hy
  have hapart : (Lexeme.placed 0 ls).Pairwise
      (Relation.SymmGen fun x y => x.1 + Text.byteLength x.2.text ≤ y.1) :=
    (Lexeme.placed_apart 0 ls).imp Or.inl
  exact hapart.forall hx hy hne

/-- The terminals and the brackets of the tree are the only segmentation of the text. So no comment
starts inside a token, and the carriage return at which a comment stops has its line feed. -/
theorem one_segmentation (cs : List Char) :
    (∃ ls, (ofText cs).pieces = Lexeme.placed 0 ls ∧
      ∀ ls', Lexeme.IsSegmentation cs ls' ↔ ls' = ls) ∧
    (∀ m ∈ (ofText cs).nodes, m.isToken = true →
      ∀ n ∈ (ofText cs).nodes, n.isComment = true →
        ¬ (m.start < n.start ∧ n.start < m.stop)) ∧
    (∀ n ∈ (ofText cs).nodes, n.isComment = true → ∀ rest,
      Text.dropBytes? n.stop cs = some ('\r' :: rest) → rest.head? = some '\n') := by
  obtain ⟨ls, hpieces, honly⟩ := isSegmentation_pieces cs
  refine ⟨⟨ls, hpieces, honly⟩, ?_, ?_⟩
  · rintro m hm htoken n hn hcomment ⟨hlo, hhi⟩
    obtain ⟨a, ha⟩ := Node.exists_text htoken
    obtain ⟨b, hb⟩ := Node.exists_text hcomment
    have hstop : m.stop = m.start + Text.byteLength a := by rw [Node.stop, Node.width, ha]
    rcases pieces_apart (mem_pieces hm ha) (mem_pieces hn hb) (by simp) with h | h
    · have : m.start + Text.byteLength a ≤ n.start := h
      omega
    · have : n.start + Text.byteLength b ≤ m.start := h
      omega
  · intro n hn hcomment rest hrest
    obtain ⟨text, htext⟩ := Node.exists_text hcomment
    have hmem := mem_pieces hn htext
    rw [hpieces] at hmem
    obtain ⟨depth, a, behind, hcs, ha, -, -, hends⟩ := ((honly ls).mpr rfl).fits hmem
    have hstop : n.stop = Text.byteLength (a ++ text) := by
      rw [Text.byteLength_append, ha, Node.stop, Node.width, htext]
    rw [hstop, hcs, Lexeme.text, Text.dropBytes?_append, Option.some.injEq] at hrest
    rcases hends with hnil | ⟨tail, hcrlf⟩ | ⟨⟨tail, hlf⟩, -⟩
    · cases hnil.symm.trans hrest
    · cases hcrlf.symm.trans hrest
      rfl
    · cases hlf.symm.trans hrest

end Tree

end Pddl
