/-
  Pddl.Proofs.Syntax.Grammar — forests as a grammar gives them.

  Read from the left, pieces are forms: a form is a terminal, or an opening bracket, forms, and a
  closing bracket or the end (`Forms`). A closing bracket at which the forms of the document stop
  is a token, and forms go on behind it (`Document`). Forests are assembled from the right
  instead, with a stack of forests set aside.
  - `document_iff`: the assembled forest is the one and only that the grammar gives;
  - `openLast_ofLexemes`: a bracket without its closing bracket is the last thing in the document;
  - `pieces_ofLexemes`: the pieces of the forest, in order, are those it was made of, with the
    closing brackets that close nothing turned into tokens (`Lexeme.settle`).
-/

import Pddl.Forest

namespace Pddl

namespace Forest

/-- `Forms ls f rest`: read from the left, `ls` is the forms `f` up to `rest`, where the pieces end
or a closing bracket stands that none of the forms takes. -/
inductive Forms : List Lexeme → Forest → List Lexeme → Prop
  | done : Forms [] nil []
  | stop (rest : List Lexeme) : Forms (.closing :: rest) nil (.closing :: rest)
  | terminal {kind : Terminal} {text : List Char} {ls rest : List Lexeme} {f : Forest} :
      Forms ls f rest → Forms (.terminal kind text :: ls) (leaf kind text f) rest
  | closed {ls more rest : List Lexeme} {inner f : Forest} :
      Forms ls inner (.closing :: more) → Forms more f rest →
      Forms (.opening :: ls) (bracket true inner f) rest
  | unclosed {ls : List Lexeme} {inner : Forest} :
      Forms ls inner [] → Forms (.opening :: ls) (bracket false inner nil) []

/-- `Document ls f`: the forms of `ls`, with a token for each closing bracket between them. -/
inductive Document : List Lexeme → Forest → Prop
  | whole {ls : List Lexeme} {f : Forest} : Forms ls f [] → Document ls f
  | stray {ls more : List Lexeme} {f g : Forest} :
      Forms ls f (.closing :: more) → Document more g → Document ls (f ++ leaf .token [')'] g)

/-! ## The grammar gives one forest -/

theorem Forms.unique {ls rest rest' : List Lexeme} {f f' : Forest} (h : Forms ls f rest)
    (h' : Forms ls f' rest') : f = f' ∧ rest = rest' := by
  induction h generalizing f' rest' with
  | done =>
    cases h'
    exact ⟨rfl, rfl⟩
  | stop =>
    cases h'
    exact ⟨rfl, rfl⟩
  | terminal _ ih =>
    cases h' with
    | terminal h' =>
      obtain ⟨rfl, rfl⟩ := ih h'
      exact ⟨rfl, rfl⟩
  | closed _ _ ihi ihr =>
    cases h' with
    | closed hi hr =>
      obtain ⟨rfl, hmore⟩ := ihi hi
      cases hmore
      obtain ⟨rfl, rfl⟩ := ihr hr
      exact ⟨rfl, rfl⟩
    | unclosed hi => cases (ihi hi).2
  | unclosed _ ihi =>
    cases h' with
    | closed hi _ => cases (ihi hi).2
    | unclosed hi =>
      obtain ⟨rfl, -⟩ := ihi hi
      exact ⟨rfl, rfl⟩

theorem Document.unique {ls : List Lexeme} {f f' : Forest} (h : Document ls f)
    (h' : Document ls f') : f = f' := by
  induction h generalizing f' with
  | whole hf =>
    cases h' with
    | whole hf' => exact (hf.unique hf').1
    | stray hf' _ => cases (hf.unique hf').2
  | stray hf _ ih =>
    cases h' with
    | whole hf' => cases (hf.unique hf').2
    | stray hf' hg' =>
      obtain ⟨rfl, hmore⟩ := hf.unique hf'
      cases hmore
      rw [ih hg']

/-! ## The assembly follows it -/

/-- The forests set aside are the forms behind the closing brackets of `rest` that are not yet
taken, the nearest first. -/
inductive Behind : List Forest → List Lexeme → Prop
  | none : Behind [] []
  | some {f : Forest} {aside : List Forest} {more rest : List Lexeme} :
      Forms more f rest → Behind aside rest → Behind (f :: aside) (.closing :: more)

/-- Reading one more piece on the left: an opening bracket takes the forms at hand, and the first
forest set aside goes on behind them. -/
theorem forms_push {ls rest : List Lexeme} {p : Partial} (hf : Forms ls p.here rest)
    (hb : Behind p.aside rest) (piece : Lexeme) :
    ∃ rest', Forms (piece :: ls) (push piece p).here rest' ∧ Behind (push piece p).aside rest' := by
  obtain ⟨here, aside⟩ := p
  cases piece with
  | terminal kind text => exact ⟨rest, .terminal hf, hb⟩
  | closing => exact ⟨.closing :: ls, .stop ls, .some hf hb⟩
  | opening =>
    cases hb with
    | none => exact ⟨[], .unclosed hf, .none⟩
    | some hr hb => exact ⟨_, .closed hf hr, hb⟩

theorem forms_foldr (ls : List Lexeme) :
    ∃ rest, Forms ls (ls.foldr push ⟨nil, []⟩).here rest ∧
      Behind (ls.foldr push ⟨nil, []⟩).aside rest := by
  induction ls with
  | nil => exact ⟨[], .done, .none⟩
  | cons piece ls ih =>
    obtain ⟨rest, hf, hb⟩ := ih
    exact forms_push hf hb piece

theorem document_joinStrays {ls rest : List Lexeme} {here : Forest} {aside : List Forest}
    (hf : Forms ls here rest) (hb : Behind aside rest) : Document ls (joinStrays here aside) := by
  induction hb generalizing ls here with
  | none => exact .whole hf
  | some hr _ ih => exact .stray hf (ih hr)

/-- The assembled forest is the one that the grammar gives. -/
theorem document_iff {ls : List Lexeme} {f : Forest} : Document ls f ↔ f = ofLexemes ls := by
  have hdoc : Document ls (ofLexemes ls) := by
    obtain ⟨rest, hf, hb⟩ := forms_foldr ls
    exact document_joinStrays hf hb
  constructor
  · intro h
    exact h.unique hdoc
  · rintro rfl
    exact hdoc

/-! ## Brackets left open -/

def Sealed : Forest → Prop
  | nil => True
  | leaf _ _ rest => rest.Sealed
  | bracket closed inner rest => closed = true ∧ inner.Sealed ∧ rest.Sealed

/-- A bracket without its closing bracket is the last in its forest, and stands in no bracket that
has one. -/
def OpenLast : Forest → Prop
  | nil => True
  | leaf _ _ rest => rest.OpenLast
  | bracket true inner rest => inner.Sealed ∧ rest.OpenLast
  | bracket false inner rest => inner.OpenLast ∧ rest = nil

theorem Sealed.openLast {f : Forest} (h : f.Sealed) : f.OpenLast := by
  induction f with
  | nil => trivial
  | leaf kind text rest ih => exact ih h
  | bracket closed inner rest _ ih =>
    obtain ⟨rfl, hi, hr⟩ := h
    exact ⟨hi, ih hr⟩

theorem OpenLast.append {f g : Forest} (hf : f.Sealed) (hg : g.OpenLast) :
    (f ++ g).OpenLast := by
  change (f.append g).OpenLast
  induction f with
  | nil => exact hg
  | leaf kind text rest ih => exact ih hf
  | bracket closed inner rest _ ih =>
    obtain ⟨rfl, hi, hr⟩ := hf
    exact ⟨hi, ih hr⟩

/-- Forms that stop at a closing bracket have all of theirs. -/
theorem Forms.sealed {ls rest : List Lexeme} {f : Forest} (h : Forms ls f rest)
    (hne : rest ≠ []) : f.Sealed := by
  induction h with
  | done | stop => trivial
  | terminal _ ih => exact ih hne
  | closed _ _ ihi ihr => exact ⟨rfl, ihi (List.cons_ne_nil _ _), ihr hne⟩
  | unclosed => exact absurd rfl hne

theorem Forms.openLast {ls rest : List Lexeme} {f : Forest} (h : Forms ls f rest) :
    f.OpenLast := by
  induction h with
  | done | stop => trivial
  | terminal _ ih => exact ih
  | closed hi _ _ ihr => exact ⟨hi.sealed (List.cons_ne_nil _ _), ihr⟩
  | unclosed _ ihi => exact ⟨ihi, rfl⟩

theorem Document.openLast {ls : List Lexeme} {f : Forest} (h : Document ls f) : f.OpenLast := by
  induction h with
  | whole hf => exact hf.openLast
  | stray hf _ ih => exact .append (hf.sealed (List.cons_ne_nil _ _)) ih

theorem openLast_ofLexemes (ls : List Lexeme) : (ofLexemes ls).OpenLast :=
  (document_iff.mpr rfl).openLast

/-! ## The pieces of a forest -/

def pieces : Forest → List Lexeme
  | nil => []
  | leaf kind text rest => .terminal kind text :: rest.pieces
  | bracket closed inner rest =>
    .opening :: (inner.pieces ++ ((if closed then [.closing] else []) ++ rest.pieces))

theorem pieces_append (f g : Forest) : (f ++ g).pieces = f.pieces ++ g.pieces := by
  change (f.append g).pieces = _
  induction f with
  | nil => rfl
  | leaf kind text rest ih => simp [append, pieces, ih]
  | bracket closed inner rest _ ih => simp [append, pieces, ih]

theorem Forms.pieces_eq {ls rest : List Lexeme} {f : Forest} (h : Forms ls f rest) :
    ls = f.pieces ++ rest := by
  induction h with
  | done | stop => rfl
  | terminal _ ih => rw [ih]; rfl
  | closed _ _ ihi ihr =>
    rw [ihi, ihr]
    simp [pieces]
  | unclosed _ ihi =>
    rw [ihi]
    simp [pieces]

end Forest

namespace Lexeme

/-- The number of open brackets behind a piece; a closing bracket changes nothing where there are
none. -/
def depthAfter (depth : Nat) : Lexeme → Nat
  | opening => depth + 1
  | closing => depth - 1
  | terminal _ _ => depth

/-- What a piece is at a depth: a closing bracket that closes nothing is a token. -/
def settled (depth : Nat) (piece : Lexeme) : Lexeme :=
  if piece = closing ∧ depth = 0 then terminal .token [')'] else piece

def settle (depth : Nat) : List Lexeme → List Lexeme
  | [] => []
  | piece :: ls => piece.settled depth :: settle (piece.depthAfter depth) ls

@[simp] theorem settled_terminal (depth : Nat) (kind : Terminal) (text : List Char) :
    (terminal kind text).settled depth = terminal kind text := by
  simp [settled]

@[simp] theorem settled_opening (depth : Nat) : opening.settled depth = opening := by
  simp [settled]

end Lexeme

namespace Forest

open Lexeme (settle)

/-- Nothing is turned into a token in a forest that has all its closing brackets, and the depth
behind it is the depth before it. -/
theorem settle_pieces_append {f : Forest} (hf : f.Sealed) (depth : Nat) (ls : List Lexeme) :
    settle depth (f.pieces ++ ls) = f.pieces ++ settle depth ls := by
  induction f generalizing depth ls with
  | nil => rfl
  | leaf kind text rest ih =>
    simp [pieces, settle, Lexeme.depthAfter, ih hf]
  | bracket closed inner rest ihi ihr =>
    obtain ⟨rfl, hi, hr⟩ := hf
    simp [pieces, settle, Lexeme.depthAfter, Lexeme.settled, ihi hi, ihr hr]

theorem settle_pieces {f : Forest} (hf : f.OpenLast) (depth : Nat) :
    settle depth f.pieces = f.pieces := by
  induction f generalizing depth with
  | nil => rfl
  | leaf kind text rest ih => simp [pieces, settle, Lexeme.depthAfter, ih hf]
  | bracket closed inner rest ihi ihr =>
    cases closed with
    | true =>
      obtain ⟨hi, hr⟩ := hf
      simp [pieces, settle, Lexeme.depthAfter, Lexeme.settled, settle_pieces_append hi, ihr hr]
    | false =>
      obtain ⟨hi, rfl⟩ := hf
      simp [pieces, settle, Lexeme.depthAfter, ihi hi]

theorem Document.pieces_eq {ls : List Lexeme} {f : Forest} (h : Document ls f) :
    f.pieces = settle 0 ls := by
  induction h with
  | whole hf => rw [hf.pieces_eq, List.append_nil, settle_pieces hf.openLast]
  | stray hf _ ih =>
    rw [hf.pieces_eq, settle_pieces_append (hf.sealed (List.cons_ne_nil _ _)), pieces_append,
      pieces, ih]
    rfl

theorem pieces_ofLexemes (ls : List Lexeme) : (ofLexemes ls).pieces = settle 0 ls :=
  (document_iff.mpr rfl).pieces_eq

end Forest

end Pddl
