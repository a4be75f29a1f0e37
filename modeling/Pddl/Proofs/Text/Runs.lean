/-
  Pddl.Proofs.Text.Runs — the first run of characters with a property.

  A run ends before the first character without the property, or at the end of the text:
  - `takeWhile_append_stop`: such characters, with what stops them behind, are the first run;
  - `takeWhile_append_behind`: what follows a text and does not go on with its first run leaves
    the run as it was;
  - `takeWhile_append_mark`: no text goes on behind a character without the property.
-/

import Mathlib.Data.List.TakeWhile

namespace Pddl.Text

variable {p : Char → Bool} {cs rest : List Char} {mark : Char}

theorem head?_dropWhile : ∀ c ∈ (cs.dropWhile p).head?, p c = false := by
  intro c hc
  have hnot := List.head?_dropWhile_not p cs
  rw [Option.mem_def.mp hc] at hnot
  exact hnot

theorem takeWhile_append_stop (hcs : ∀ c ∈ cs, p c = true) (hrest : ∀ c ∈ rest.head?, p c = false) :
    (cs ++ rest).takeWhile p = cs ∧ (cs ++ rest).dropWhile p = rest := by
  rw [List.takeWhile_append_of_pos hcs, List.dropWhile_append_of_pos hcs]
  cases rest with
  | nil => simp
  | cons d rest => simp [hrest d rfl]

theorem takeWhile_append_behind (h : ∀ c ∈ (cs.dropWhile p ++ rest).head?, p c = false) :
    (cs ++ rest).takeWhile p = cs.takeWhile p ∧
      (cs ++ rest).dropWhile p = cs.dropWhile p ++ rest := by
  have hrun : ∀ c ∈ cs.takeWhile p, p c = true := fun _ => List.mem_takeWhile_imp
  have hparts := takeWhile_append_stop hrun h
  rwa [← List.append_assoc, List.takeWhile_append_dropWhile] at hparts

theorem takeWhile_append_mark (h : p mark = false) (cs rest : List Char) :
    (cs ++ mark :: rest).takeWhile p = cs.takeWhile p ∧
      (cs ++ mark :: rest).dropWhile p = cs.dropWhile p ++ mark :: rest := by
  apply takeWhile_append_behind
  intro c hc
  cases hdrop : cs.dropWhile p with
  | nil =>
    obtain rfl : mark = c := by simpa [hdrop] using hc
    exact h
  | cons d ds =>
    rw [hdrop] at hc
    exact head?_dropWhile c (by rw [hdrop]; exact hc)

end Pddl.Text
