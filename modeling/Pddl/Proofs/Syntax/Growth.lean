/-
  Pddl.Proofs.Syntax.Growth — a text to which more is written at its end.

  Read again with more behind it, a text falls into the same pieces but for the last one, which
  may grow, and which may even shrink: a comment gives up its last carriage return to a line feed
  that follows (`lexemes_append`). So the tree of the longer text is the tree of the shorter one
  in which the last terminal is replaced and the brackets left open go on (`Grows`).
  - `grown_push`: this is kept while a forest is assembled, where the forests set aside are
    finished but for the last;
  - `mem_nodes_of_grows`: a node that is a closed bracket, or that ends before the text does, is a
    node of the grown forest;
  - `finished_rows_kept`: its row stays as it is.
-/

import Pddl.Proofs.Syntax.Segmentation
import Pddl.Proofs.Syntax.Table

namespace Pddl

/-! ## Pieces -/

namespace Lexeme

theorem StopsBefore.append {text rest : List Char} (h : StopsBefore text rest) (hne : rest ≠ [])
    (more : List Char) : StopsBefore text (rest ++ more) := by
  rcases h with hnil | ⟨tail, rfl⟩ | ⟨⟨tail, rfl⟩, hlast⟩
  · exact absurd hnil hne
  · exact .inr (.inl ⟨tail ++ more, rfl⟩)
  · exact .inr (.inr ⟨⟨tail ++ more, rfl⟩, hlast⟩)

/-- A comment that stops before the end stops there too when there is more behind the end. -/
theorem commentBody_append_more {cs : List Char} (hne : afterComment cs ≠ []) (more : List Char) :
    commentBody (cs ++ more) = commentBody cs ∧
      afterComment (cs ++ more) = afterComment cs ++ more := by
  have h := commentBody_append (lf_not_mem_commentBody cs)
    ((stopsBefore_afterComment cs).append hne more)
  rwa [← List.append_assoc, commentBody_append_afterComment] at h

/-- So does a run of characters with a property. -/
theorem takeWhile_append_more {p : Char → Bool} {cs : List Char} (hne : cs.dropWhile p ≠ [])
    (more : List Char) :
    (cs ++ more).takeWhile p = cs.takeWhile p ∧
      (cs ++ more).dropWhile p = cs.dropWhile p ++ more := by
  apply Text.takeWhile_append_behind
  rw [List.head?_append_of_ne_nil _ hne]
  exact Text.head?_dropWhile

/-- More was read behind the first pieces, and the second came of it: the last terminal may have
changed. -/
inductive Grows : List Lexeme → List Lexeme → Prop
  | nil (ls : List Lexeme) : Grows [] ls
  | last (kind : Terminal) (text : List Char) (ls : List Lexeme) : Grows [terminal kind text] ls
  | cons (piece : Lexeme) {as bs : List Lexeme} : Grows as bs → Grows (piece :: as) (piece :: bs)

/-- Up to its last terminal, a text falls into the same pieces whatever follows it. -/
theorem lexemes_append (a b : List Char) : Grows (lexemes a) (lexemes (a ++ b)) := by
  fun_induction lexemes a with
  | case1 => exact .nil _
  | case2 cs ih =>
    rw [List.cons_append, lexemes, if_pos rfl]
    exact .cons _ ih
  | case3 cs ho ih =>
    rw [List.cons_append, lexemes, if_neg ho, if_pos rfl]
    exact .cons _ ih
  | case4 cs ho hc ih =>
    by_cases hend : afterComment cs = []
    · rw [hend, lexemes]
      exact .last _ _ _
    · obtain ⟨hbody, hafter⟩ := commentBody_append_more hend b
      rw [List.cons_append, lexemes, if_neg ho, if_neg hc, if_pos rfl, hbody, hafter]
      exact .cons _ ih
  | case5 c cs ho hc hs hb ih =>
    by_cases hend : cs.dropWhile Text.isBlank = []
    · rw [hend, lexemes]
      exact .last _ _ _
    · obtain ⟨htake, hdrop⟩ := takeWhile_append_more hend b
      rw [List.cons_append, lexemes, if_neg ho, if_neg hc, if_neg hs, if_pos hb, htake, hdrop]
      exact .cons _ ih
  | case6 c cs ho hc hs hb ih =>
    by_cases hend : cs.dropWhile isTokenChar = []
    · rw [hend, lexemes]
      exact .last _ _ _
    · obtain ⟨htake, hdrop⟩ := takeWhile_append_more hend b
      rw [List.cons_append, lexemes, if_neg ho, if_neg hc, if_neg hs, if_neg hb, htake, hdrop]
      exact .cons _ ih

end Lexeme

/-! ## Forests -/

namespace Forest

/-- More was read behind the first forest, and the second came of it. The last terminal is open to
change, and so is all that is not yet written. -/
inductive Grows : Forest → Forest → Prop
  | nil (g : Forest) : Grows nil g
  | last (kind : Terminal) (text : List Char) (g : Forest) : Grows (leaf kind text nil) g
  | leaf (kind : Terminal) (text : List Char) {f g : Forest} :
      Grows f g → Grows (leaf kind text f) (leaf kind text g)
  | closed (inner : Forest) {f g : Forest} :
      Grows f g → Grows (bracket true inner f) (bracket true inner g)
  | unclosed {f g : Forest} (closed : Bool) (rest : Forest) :
      Grows f g → Grows (bracket false f nil) (bracket closed g rest)

theorem Grows.append_right {f g : Forest} (h : Grows f g) (more : Forest) :
    Grows f (g ++ more) := by
  induction h with
  | nil => exact .nil _
  | last kind text => exact .last kind text _
  | leaf kind text _ ih => exact .leaf kind text ih
  | closed inner _ ih => exact .closed inner ih
  | unclosed closed rest h => exact .unclosed closed (rest ++ more) h

theorem Grows.append_left {f g h : Forest} (hf : f.Sealed) (hgrows : Grows g h) :
    Grows (f ++ g) (f ++ h) := by
  induction f with
  | nil => exact hgrows
  | leaf kind text rest ih => exact .leaf kind text (ih hf)
  | bracket closed inner rest _ ih =>
    obtain ⟨rfl, -, hrest⟩ := hf
    exact .closed inner (ih hrest)

/-- The forests of two assemblies, the one at hand first, where more was read behind those of the
first: all but its last are finished. -/
inductive Grown : List Forest → List Forest → Prop
  | last {f g : Forest} (more : List Forest) : Grows f g → Grown [f] (g :: more)
  | finished {f : Forest} {as bs : List Forest} : f.Sealed → Grown as bs → Grown (f :: as) (f :: bs)

/-- One more piece read on the left changes nothing of this. -/
theorem grown_push {p q : Partial} (h : Grown (p.here :: p.aside) (q.here :: q.aside))
    (piece : Lexeme) :
    Grown ((push piece p).here :: (push piece p).aside)
      ((push piece q).here :: (push piece q).aside) := by
  obtain ⟨here, aside⟩ := p
  obtain ⟨here', aside'⟩ := q
  cases piece with
  | terminal kind text =>
    cases h with
    | last _ hgrows => exact .last _ (.leaf kind text hgrows)
    | finished hsealed h => exact .finished hsealed h
  | closing => exact .finished trivial h
  | opening =>
    cases h with
    | last _ hgrows =>
      -- the bracket stays open, or the longer text closes it
      cases aside' with
      | nil => exact .last _ (.unclosed false nil hgrows)
      | cons rest aside' => exact .last _ (.unclosed true rest hgrows)
    | finished hsealed h =>
      cases h with
      | last _ hgrows => exact .last _ (.closed here hgrows)
      | finished hrest h => exact .finished ⟨rfl, hsealed, hrest⟩ h

theorem grown_foldr {as bs : List Lexeme} (h : Lexeme.Grows as bs) :
    Grown ((as.foldr push ⟨nil, []⟩).here :: (as.foldr push ⟨nil, []⟩).aside)
      ((bs.foldr push ⟨nil, []⟩).here :: (bs.foldr push ⟨nil, []⟩).aside) := by
  induction h with
  | nil => exact .last _ (.nil _)
  | last kind text => exact .last _ (.last kind text _)
  | cons piece _ ih => exact grown_push ih piece

theorem grows_joinStrays {f g : Forest} {as bs : List Forest} (h : Grown (f :: as) (g :: bs)) :
    Grows (joinStrays f as) (joinStrays g bs) := by
  induction as generalizing f g bs with
  | nil =>
    cases h with
    | last _ hgrows =>
      cases bs with
      | nil => exact hgrows
      | cons rest bs => exact hgrows.append_right _
    | finished _ h => cases h
  | cons a as ih =>
    cases h with
    | finished hsealed h =>
      cases bs with
      | nil => cases h
      | cons b bs => exact .append_left hsealed (.leaf _ _ (ih h))

/-- The forest of a text, read with more behind it. -/
theorem grows_ofText (a b : List Char) : Grows (ofText a) (ofText (a ++ b)) :=
  grows_joinStrays (grown_foldr (Lexeme.lexemes_append a b))

/-! ## Nodes -/

/-- A node whose end is known before the end of the forest is not changed by what follows. -/
theorem mem_nodes_of_grows {f g : Forest} (h : Grows f g) {above : List Nat} {id start : Nat}
    {n : Node} (hn : n ∈ f.nodes above id start)
    (hdone : (n.isBracket = true ∧ n.isClosed = true) ∨ n.stop < start + f.width) :
    n ∈ g.nodes above id start := by
  induction h generalizing above id start with
  | nil => cases hn
  | last kind text g =>
    obtain rfl := List.mem_singleton.mp hn
    rcases hdone with ⟨hb, -⟩ | hlt
    · cases hb
    · simp only [Node.stop, Node.width, width] at hlt
      omega
  | leaf kind text _ ih =>
    rcases List.mem_cons.mp hn with rfl | hn
    · exact List.mem_cons_self
    · refine List.mem_cons_of_mem _ (ih hn (hdone.imp_right fun hlt => ?_))
      rwa [width, ← Nat.add_assoc] at hlt
  | closed inner _ ih =>
    rcases mem_nodes_bracket.mp hn with rfl | hn | hn
    · exact List.mem_cons_self
    · exact mem_nodes_bracket.mpr (.inr (.inl hn))
    · refine mem_nodes_bracket.mpr (.inr (.inr (ih hn (hdone.imp_right fun hlt => ?_))))
      simp only [width] at hlt
      omega
  | unclosed closed rest _ ih =>
    rcases mem_nodes_bracket.mp hn with rfl | hn | hn
    · rcases hdone with ⟨-, hc⟩ | hlt
      · cases hc
      · simp only [Node.stop, Node.width, width] at hlt
        omega
    · refine mem_nodes_bracket.mpr (.inr (.inl (ih hn (hdone.imp_right fun hlt => ?_))))
      simp only [width, closer, Bool.false_eq_true, if_false, List.length_nil] at hlt
      omega
    · cases hn

end Forest

namespace Tree

theorem mem_nodes_append {a : List Char} {n : Node} (b : List Char) (hn : n ∈ (ofText a).nodes)
    (hdone : (n.isBracket = true ∧ n.isClosed = true) ∨ n.stop < Text.byteLength a) :
    n ∈ (ofText (a ++ b)).nodes := by
  have hwidth : (Forest.ofText a).width = Text.byteLength a := by
    rw [Forest.width_eq, Forest.text_ofText]
  rw [nodes_eq] at hn ⊢
  rcases List.mem_cons.mp hn with rfl | hn
  · rcases hdone with ⟨hb, -⟩ | hlt
    · cases hb
    · rw [← hwidth] at hlt
      exact absurd hlt (by simp [root, ofText, Node.stop, Node.width])
  · refine List.mem_cons_of_mem _ (Forest.mem_nodes_of_grows (Forest.grows_ofText a b) hn ?_)
    rwa [Nat.zero_add, hwidth]

/-- What is finished in a text stays when more is written behind the text: a closed bracket, or a
node that ends before the text, keeps its number, and its row with all its links. -/
theorem finished_rows_kept (a b : List Char) (i : Nat) (r : Row)
    (hr : (ofText a).table[i]? = some r)
    (hdone : (r.kind = .bracket ∧ r.closed = true) ∨ r.stop < Text.byteLength a) :
    (ofText (a ++ b)).table[i]? = some r := by
  obtain ⟨n, hn, rfl, rfl⟩ := exists_node hr
  exact table_at (mem_nodes_append b hn (hdone.imp_left (.imp_left Node.kind_eq_bracket_iff.mp)))

/-- The closing of the bracket around it, and a comment that loses its carriage return, leave a
closed bracket as it was. -/
theorem an_inner_bracket_is_kept :
    let a := "(p (a b) ;x\r".toList
    let r : Row := ⟨.bracket, 3, 8, true, some 1, [5, 6, 7]⟩
    (ofText a).table[4]? = some r ∧ (ofText (a ++ "\n)".toList)).table[4]? = some r := by
  intro a r
  have hr : (ofText a).table[4]? = some r := by decide +kernel
  exact ⟨hr, finished_rows_kept a "\n)".toList 4 r hr (.inl ⟨rfl, rfl⟩)⟩

-- a comment at the end of a text is not finished: it loses a carriage return to a line feed
example : (ofText ";\r".toList).table[1]? ≠ (ofText (";\r".toList ++ ['\n'])).table[1]? := by
  decide +kernel

end Tree

end Pddl
