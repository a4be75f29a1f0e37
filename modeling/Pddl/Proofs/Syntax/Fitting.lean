/-
  Pddl.Proofs.Syntax.Fitting — forests that are read from their own text.

  A forest has a text, and the text has a forest: these need not be the same, for a terminal may
  go on into what stands behind it, and a bracket left open takes all that follows. They are the
  same where each terminal fits in front of what is behind it in its bracket (`Fits`) and brackets
  left open come last (`OpenLast`). What stands behind a closing bracket never matters to what is
  in front of it, so that both are conditions on each bracket by itself.
  - `segments_sealed`, `segments_openLast`: the terminals of a forest fit if and only if its pieces
    are a segmentation;
  - `ofText_text`: then the forest is that of its text;
  - `ofText_alone`: this holds of every bracket in the forest of a text.
-/

import Pddl.Proofs.Syntax.Segmentation
import Pddl.Proofs.Syntax.Table

namespace Pddl

/-! ## What stands behind a terminal -/

namespace Lexeme

theorem stopsBefore_closing {text x y : List Char} :
    StopsBefore text (x ++ ')' :: y) ↔ StopsBefore text (x ++ [')']) := by
  match x with
  | [] => simp [StopsBefore]
  | ['\n'] => simp [StopsBefore]
  | [c] => simp [StopsBefore]
  | c :: d :: x => simp [StopsBefore]

/-- A terminal does not look past a closing bracket. -/
theorem fits_behind_closing {kind : Terminal} {text x y : List Char} {depth : Nat} :
    (terminal kind text).Fits depth (x ++ ')' :: y) ↔
      (terminal kind text).Fits depth (x ++ [')']) := by
  have hhead : (x ++ ')' :: y).head? = (x ++ [')']).head? := by cases x <;> rfl
  cases kind with
  | token | blank => simp only [Fits, hhead]
  | comment => simp only [Fits, stopsBefore_closing]

/-- In brackets it does not matter how many they are. -/
theorem fits_in_brackets {kind : Terminal} {text rest : List Char} {depth : Nat}
    (h : (terminal kind text).Fits (depth + 1) rest) (depth' : Nat) :
    (terminal kind text).Fits (depth' + 1) rest := by
  cases kind with
  | blank | comment => exact h
  | token =>
    rcases h with ⟨-, hdepth⟩ | h
    · cases hdepth
    · exact .inr h

theorem segments_opening {depth : Nat} {ls : List Lexeme} :
    Segments depth (opening :: ls) ↔ Segments (depth + 1) ls := and_iff_right trivial

theorem segments_closing {depth : Nat} {ls : List Lexeme} :
    Segments (depth + 1) (closing :: ls) ↔ Segments depth ls := and_iff_right (Nat.succ_pos depth)

theorem segments_terminal {kind : Terminal} {text : List Char} {depth : Nat} {ls : List Lexeme} :
    Segments depth (terminal kind text :: ls) ↔
      (terminal kind text).Fits depth (ls.flatMap Lexeme.text) ∧ Segments depth ls := Iff.rfl

end Lexeme

namespace Forest

open Lexeme (Segments)

theorem text_pieces (f : Forest) : f.pieces.flatMap Lexeme.text = f.text := by
  induction f with
  | nil => rfl
  | leaf kind text rest ih => simp [pieces, Forest.text, Lexeme.text, ih]
  | bracket closed inner rest ihi ihr =>
    cases closed <;> simp [pieces, Forest.text, Lexeme.text, closer, ihi, ihr]

/-- Each terminal fits in front of what is behind it up to the end of the forest, where a closing
bracket stands if `closed`. -/
def Fits (depth : Nat) (closed : Bool) : Forest → Prop
  | nil => True
  | leaf kind text rest =>
    (Lexeme.terminal kind text).Fits depth (rest.text ++ closer closed) ∧ rest.Fits depth closed
  | bracket closed' inner rest => inner.Fits (depth + 1) closed' ∧ rest.Fits depth closed

theorem Fits.in_brackets {f : Forest} {depth : Nat} {closed : Bool} (h : f.Fits (depth + 1) closed)
    (depth' : Nat) : f.Fits (depth' + 1) closed := by
  induction f generalizing depth depth' closed with
  | nil => trivial
  | leaf kind text rest ih => exact ⟨Lexeme.fits_in_brackets h.1 depth', ih h.2 depth'⟩
  | bracket closed' inner rest ihi ihr => exact ⟨ihi h.1 (depth' + 1), ihr h.2 depth'⟩

/-! ## Forests that fit and pieces that fit -/

theorem pieces_closed (inner rest : Forest) :
    (bracket true inner rest).pieces = .opening :: (inner.pieces ++ .closing :: rest.pieces) := rfl

theorem pieces_unclosed (inner : Forest) :
    (bracket false inner nil).pieces = .opening :: inner.pieces := by
  simp [pieces]

theorem segments_sealed {f : Forest} (hf : f.Sealed) (depth : Nat) (ls : List Lexeme) :
    Segments depth (f.pieces ++ .closing :: ls) ↔
      f.Fits depth true ∧ Segments depth (.closing :: ls) := by
  induction f generalizing depth ls with
  | nil => simp [pieces, Fits]
  | leaf kind text rest ih =>
    have htext : (rest.pieces ++ .closing :: ls).flatMap Lexeme.text =
        rest.text ++ ')' :: ls.flatMap Lexeme.text := by
      rw [List.flatMap_append, text_pieces, List.flatMap_cons]
      rfl
    rw [pieces, List.cons_append, Lexeme.segments_terminal, htext, Lexeme.fits_behind_closing,
      ih hf, ← and_assoc]
    rfl
  | bracket closed inner rest ihi ihr =>
    obtain ⟨rfl, hi, hr⟩ := hf
    rw [pieces_closed, List.cons_append, List.append_assoc, List.cons_append,
      Lexeme.segments_opening, ihi hi, Lexeme.segments_closing, ihr hr, ← and_assoc]
    rfl

theorem segments_openLast {f : Forest} (hf : f.OpenLast) (depth : Nat) :
    Segments depth f.pieces ↔ f.Fits depth false := by
  induction f generalizing depth with
  | nil => exact Iff.rfl
  | leaf kind text rest ih =>
    rw [pieces, Lexeme.segments_terminal, text_pieces, ih hf, ← List.append_nil rest.text]
    rfl
  | bracket closed inner rest ihi ihr =>
    cases closed with
    | true =>
      rw [pieces_closed, Lexeme.segments_opening, segments_sealed hf.1, Lexeme.segments_closing,
        ihr hf.2]
      rfl
    | false =>
      obtain ⟨hi, rfl⟩ := hf
      rw [pieces_unclosed, Lexeme.segments_opening, ihi hi]
      exact (and_iff_left trivial).symm

/-! ## Reading a forest from its text -/

theorem forms_sealed {f : Forest} (hf : f.Sealed) (ls : List Lexeme) :
    Forms (f.pieces ++ .closing :: ls) f (.closing :: ls) := by
  induction f generalizing ls with
  | nil => exact .stop ls
  | leaf kind text rest ih => exact .terminal (ih hf ls)
  | bracket closed inner rest ihi ihr =>
    obtain ⟨rfl, hi, hr⟩ := hf
    rw [pieces_closed, List.cons_append, List.append_assoc, List.cons_append]
    exact .closed (ihi hi _) (ihr hr ls)

theorem forms_openLast {f : Forest} (hf : f.OpenLast) : Forms f.pieces f [] := by
  induction f with
  | nil => exact .done
  | leaf kind text rest ih => exact .terminal (ih hf)
  | bracket closed inner rest ihi ihr =>
    cases closed with
    | true => exact .closed (forms_sealed hf.1 _) (ihr hf.2)
    | false =>
      obtain ⟨hi, rfl⟩ := hf
      rw [pieces_unclosed]
      exact .unclosed (ihi hi)

/-- A forest is the one of its pieces. -/
theorem ofLexemes_pieces {f : Forest} (hf : f.OpenLast) : ofLexemes f.pieces = f :=
  (document_iff.mp (.whole (forms_openLast hf))).symm

/-- A forest that fits is the one of its text. -/
theorem ofText_text {f : Forest} (hf : f.OpenLast) (hfits : f.Fits 0 false) :
    ofText f.text = f := by
  have hsettle := Lexeme.settle_lexemes_of_segments ((segments_openLast hf 0).mpr hfits)
  rw [text_pieces] at hsettle
  calc ofText f.text
      = ofLexemes (ofText f.text).pieces := (ofLexemes_pieces (openLast_ofLexemes _)).symm
    _ = ofLexemes f.pieces := by rw [ofText, pieces_ofLexemes, hsettle]
    _ = f := ofLexemes_pieces hf

theorem fits_ofText (cs : List Char) : (ofText cs).Fits 0 false := by
  rw [ofText, ← segments_openLast (openLast_ofLexemes _), pieces_ofLexemes]
  exact Lexeme.segments_settle_lexemes cs 0

/-! ## A bracket by itself -/

variable {f inner : Forest} {above : List Nat} {id start : Nat} {n : Node} {closed : Bool}

theorem openLast_inside (hf : f.OpenLast) (h : n ∈ f.nodes above id start)
    (hshape : n.shape = .bracket closed inner) : (bracket closed inner nil).OpenLast := by
  induction f generalizing above id start with
  | nil => cases h
  | leaf kind text rest ih =>
    rcases List.mem_cons.mp h with rfl | h
    · cases hshape
    · exact ih hf h
  | bracket closed' inner' rest ihi ihr =>
    cases closed' with
    | true =>
      obtain ⟨hi, hr⟩ := hf
      rcases mem_nodes_bracket.mp h with rfl | h | h
      · cases hshape
        exact ⟨hi, trivial⟩
      · exact ihi hi.openLast h
      · exact ihr hr h
    | false =>
      obtain ⟨hi, rfl⟩ := hf
      rcases mem_nodes_bracket.mp h with rfl | h | h
      · cases hshape
        exact ⟨hi, rfl⟩
      · exact ihi hi h
      · cases h

theorem fits_inside {depth : Nat} {behind : Bool} (hf : f.Fits depth behind)
    (h : n ∈ f.nodes above id start) (hshape : n.shape = .bracket closed inner) :
    (bracket closed inner nil).Fits 0 false := by
  induction f generalizing above id start depth behind with
  | nil => cases h
  | leaf kind text rest ih =>
    rcases List.mem_cons.mp h with rfl | h
    · cases hshape
    · exact ih hf.2 h
  | bracket closed' inner' rest ihi ihr =>
    rcases mem_nodes_bracket.mp h with rfl | h | h
    · cases hshape
      exact ⟨hf.1.in_brackets 0, trivial⟩
    · exact ihi hf.1 h
    · exact ihr hf.2 h

end Forest

def Node.alone (n : Node) : Forest :=
  match n.shape with
  | .document inner => inner
  | .bracket closed inner => .bracket closed inner .nil
  | .terminal kind text => .leaf kind text .nil

theorem Node.text_alone (n : Node) : n.alone.text = n.text := by
  obtain ⟨id, ancestors, start, shape⟩ := n
  cases shape <;> simp [alone, Node.text, Forest.text]

namespace Tree

variable {cs : List Char} {n : Node}

/-- By themselves, the document and the brackets of a text are as read from a text. -/
theorem alone_fits (hn : n ∈ (ofText cs).nodes) (hkind : (n.isDocument || n.isBracket) = true) :
    n.alone.OpenLast ∧ n.alone.Fits 0 false := by
  have hopen : (Forest.ofText cs).OpenLast := Forest.openLast_ofLexemes _
  rw [nodes_eq] at hn
  rcases List.mem_cons.mp hn with rfl | hn
  · exact ⟨hopen, Forest.fits_ofText cs⟩
  · obtain ⟨id, ancestors, start, shape⟩ := n
    cases shape with
    | document inner => exact absurd rfl (Forest.kind_ne_document hn)
    | terminal => cases hkind
    | bracket closed inner =>
      exact ⟨Forest.openLast_inside hopen hn rfl,
        Forest.fits_inside (Forest.fits_ofText cs) hn rfl⟩

/-- What is read from the text of a document or a bracket is the document or the bracket. -/
theorem ofText_alone (hn : n ∈ (ofText cs).nodes) (hkind : (n.isDocument || n.isBracket) = true) :
    Forest.ofText n.text = n.alone := by
  obtain ⟨hopen, hfits⟩ := alone_fits hn hkind
  rw [← n.text_alone]
  exact Forest.ofText_text hopen hfits

end Tree

end Pddl
