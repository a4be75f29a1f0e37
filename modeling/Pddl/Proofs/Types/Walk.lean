/-
  Pddl.Proofs.Types.Walk — walks along a relation, with their lengths.

  `ReflTransGen` says that one thing leads to another, but not in how many steps. A `Walk` counts
  them (`reflTransGen_iff_walk`), and `Shortest` is the length of a walk than which none is
  shorter.
-/

import Mathlib.Logic.Relation

namespace Pddl

open Relation (ReflTransGen)

inductive Walk {α : Type} (r : α → α → Prop) (a : α) : Nat → α → Prop
  | here : Walk r a 0 a
  | step {n : Nat} {b c : α} (way : Walk r a n b) (last : r b c) : Walk r a (n + 1) c

structure Shortest {α : Type} (r : α → α → Prop) (a b : α) (n : Nat) : Prop where
  walk : Walk r a n b
  least : ∀ m, Walk r a m b → n ≤ m

variable {α β : Type} {r : α → α → Prop} {s : β → β → Prop} {f : α → β} {a b : α} {n : Nat}

theorem reflTransGen_iff_walk : ReflTransGen r a b ↔ ∃ n, Walk r a n b := by
  constructor
  · intro h
    induction h with
    | refl => exact ⟨0, .here⟩
    | tail _ hlast ih =>
      obtain ⟨n, hway⟩ := ih
      exact ⟨n + 1, .step hway hlast⟩
  · intro ⟨n, h⟩
    induction h with
    | here => exact .refl
    | step _ hlast ih => exact ih.tail hlast

theorem Walk.map (hf : ∀ a b, r a b → s (f a) (f b)) (h : Walk r a n b) :
    Walk s (f a) n (f b) := by
  induction h with
  | here => exact .here
  | step _ hlast ih => exact .step ih (hf _ _ hlast)

end Pddl
