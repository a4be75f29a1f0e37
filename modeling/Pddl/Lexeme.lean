/-
  Pddl.Lexeme — the pieces of a text.

  Read from the left, a text falls into brackets, blank runs, comments and tokens. A semicolon
  that begins a piece begins a comment, which runs up to the next line feed, or to the carriage
  return right before it; neither is part of the comment, and a carriage return on its own does
  not end it. Any other piece that is neither a bracket nor blank is a token: it runs up to the
  next blank or bracket, so a semicolon inside a token is part of it. No character is lost:
  the pieces put together are the text (`text_lexemes`).
-/

import Pddl.Text.Blank

namespace Pddl

inductive Terminal where
  | token
  | blank
  | comment
  deriving DecidableEq, Repr

namespace Terminal

def name : Terminal → String
  | token => "token"
  | blank => "whitespace"
  | comment => "comment"

end Terminal

inductive Lexeme where
  | opening
  | closing
  | terminal (kind : Terminal) (text : List Char)
  deriving DecidableEq, Repr

namespace Lexeme

def text : Lexeme → List Char
  | opening => ['(']
  | closing => [')']
  | terminal _ text => text

/-- Whether a comment stops in front of this text. -/
def endsComment : List Char → Bool
  | '\n' :: _ => true
  | '\r' :: '\n' :: _ => true
  | _ => false

def commentBody : List Char → List Char
  | [] => []
  | c :: cs => if endsComment (c :: cs) then [] else c :: commentBody cs

def afterComment : List Char → List Char
  | [] => []
  | c :: cs => if endsComment (c :: cs) then c :: cs else afterComment cs

theorem commentBody_append_afterComment (cs : List Char) :
    commentBody cs ++ afterComment cs = cs := by
  induction cs with
  | nil => rfl
  | cons c cs ih => by_cases h : endsComment (c :: cs) <;> simp [commentBody, afterComment, h, ih]

theorem length_afterComment_le (cs : List Char) : (afterComment cs).length ≤ cs.length := by
  have h := congrArg List.length (commentBody_append_afterComment cs)
  rw [List.length_append] at h
  omega

def isTokenChar (c : Char) : Bool := !Text.isBlank c && c != '(' && c != ')'

def lexemes : List Char → List Lexeme
  | [] => []
  | c :: cs =>
    if c = '(' then opening :: lexemes cs
    else if c = ')' then closing :: lexemes cs
    else if c = ';' then terminal .comment (c :: commentBody cs) :: lexemes (afterComment cs)
    else if Text.isBlank c then
      terminal .blank (c :: cs.takeWhile Text.isBlank) :: lexemes (cs.dropWhile Text.isBlank)
    else
      terminal .token (c :: cs.takeWhile isTokenChar) :: lexemes (cs.dropWhile isTokenChar)
termination_by cs => cs.length
decreasing_by
  · exact Nat.lt_succ_self _
  · exact Nat.lt_succ_self _
  · exact Nat.lt_succ_of_le (length_afterComment_le cs)
  · exact Nat.lt_succ_of_le (List.dropWhile_sublist _).length_le
  · exact Nat.lt_succ_of_le (List.dropWhile_sublist _).length_le

/-- The pieces put together are the text. -/
theorem text_lexemes (cs : List Char) : (lexemes cs).flatMap text = cs := by
  fun_induction lexemes cs with
  | case1 => rfl
  | case2 cs ih => simp [text, ih]
  | case3 cs _ ih => simp [text, ih]
  | case4 cs _ _ ih => simp [text, ih, commentBody_append_afterComment]
  | case5 c cs _ _ _ _ ih => simp [text, ih, List.takeWhile_append_dropWhile]
  | case6 c cs _ _ _ _ ih => simp [text, ih, List.takeWhile_append_dropWhile]

end Lexeme

end Pddl
