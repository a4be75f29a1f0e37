/-
  Pddl.Proofs.Syntax.Scan — a run over the pieces of a text that keeps the open brackets.

  The run goes from the left. It knows the offset it has come to, and the offsets of the brackets
  that are open there, the innermost first (`Scan`). An opening bracket is one more, a closing
  bracket takes the innermost away, or nothing where none is open. `moments` lists the pieces with
  what the run knows when it meets them.
  - `run_pieces`: behind a forest that has all its closing brackets the same brackets are open as
    before it;
  - `moments_settle`: the run makes no difference between a closing bracket that closes nothing
    and a token;
  - `marks_perm`: in the nodes of the tree these moments are found again, each with the brackets
    around its node (`Node.marks`).
-/

import Pddl.Proofs.Syntax.Nodes

namespace Pddl

structure Scan where
  offset : Nat
  /-- The offsets of the brackets that are open, the innermost first. -/
  opened : List Nat
  deriving DecidableEq, Repr

namespace Scan

def start : Scan := ⟨0, []⟩

def depth (s : Scan) : Nat := s.opened.length

def next (s : Scan) (piece : Lexeme) : Scan where
  offset := s.offset + Text.byteLength piece.text
  opened :=
    match piece with
    | .opening => s.offset :: s.opened
    | .closing => s.opened.tail
    | .terminal _ _ => s.opened

def run (s : Scan) (ls : List Lexeme) : Scan := ls.foldl next s

def moments (s : Scan) : List Lexeme → List (Scan × Lexeme)
  | [] => []
  | piece :: ls => (s, piece) :: (s.next piece).moments ls

def momentsOf (cs : List Char) : List (Scan × Lexeme) := start.moments (Lexeme.lexemes cs)

theorem run_append (s : Scan) (as bs : List Lexeme) : s.run (as ++ bs) = (s.run as).run bs :=
  List.foldl_append

theorem moments_append (s : Scan) (as bs : List Lexeme) :
    s.moments (as ++ bs) = s.moments as ++ (s.run as).moments bs := by
  induction as generalizing s with
  | nil => rfl
  | cons a as ih => rw [List.cons_append, moments, ih]; rfl

/-! ## Depth -/

theorem depth_next (s : Scan) (piece : Lexeme) :
    (s.next piece).depth = piece.depthAfter s.depth := by
  cases piece <;> simp [next, depth, Lexeme.depthAfter]

theorem depth_run (s : Scan) (ls : List Lexeme) :
    (s.run ls).depth = ls.foldl Lexeme.depthAfter s.depth := by
  induction ls generalizing s with
  | nil => rfl
  | cons piece ls ih =>
    rw [List.foldl_cons, ← depth_next, ← ih]
    rfl

/-- A closing bracket that closes nothing leads where a token of its width leads. -/
theorem next_settled (s : Scan) (piece : Lexeme) :
    s.next (piece.settled s.depth) = s.next piece := by
  unfold Lexeme.settled
  split
  · rename_i h
    obtain ⟨rfl, hd⟩ := h
    have hnil : s.opened = [] := List.eq_nil_of_length_eq_zero hd
    simp [next, hnil, Lexeme.text]
  · rfl

theorem moments_settle (s : Scan) (ls : List Lexeme) :
    s.moments (Lexeme.settle s.depth ls) =
      (s.moments ls).map fun m => (m.1, m.2.settled m.1.depth) := by
  induction ls generalizing s with
  | nil => rfl
  | cons piece ls ih =>
    rw [Lexeme.settle, moments, moments, List.map_cons, next_settled, ← depth_next, ih]

theorem run_settle (s : Scan) (ls : List Lexeme) : s.run (Lexeme.settle s.depth ls) = s.run ls := by
  induction ls generalizing s with
  | nil => rfl
  | cons piece ls ih =>
    have hstep : s.run (Lexeme.settle s.depth (piece :: ls)) =
        (s.next piece).run (Lexeme.settle (s.next piece).depth ls) := by
      rw [Lexeme.settle, ← depth_next, ← next_settled]
      rfl
    rw [hstep, ih]
    rfl

/-! ## Over a forest -/

@[simp] theorem next_opening (s : Scan) : s.next .opening = ⟨s.offset + 1, s.offset :: s.opened⟩ :=
  rfl

@[simp] theorem next_closing (s : Scan) : s.next .closing = ⟨s.offset + 1, s.opened.tail⟩ := rfl

@[simp] theorem next_terminal (s : Scan) (kind : Terminal) (text : List Char) :
    s.next (.terminal kind text) = ⟨s.offset + Text.byteLength text, s.opened⟩ := rfl

/-- Behind a forest with all its closing brackets the same brackets are open as before it. -/
theorem run_pieces {f : Forest} (hf : f.Sealed) (s : Scan) :
    s.run f.pieces = ⟨s.offset + f.width, s.opened⟩ := by
  induction f generalizing s with
  | nil => rfl
  | leaf kind text rest ih =>
    show (s.next (.terminal kind text)).run rest.pieces = _
    rw [ih hf]
    simp [Forest.width, Nat.add_assoc]
  | bracket closed inner rest ihi ihr =>
    obtain ⟨rfl, hi, hr⟩ := hf
    show (s.next .opening).run (inner.pieces ++ .closing :: rest.pieces) = _
    rw [run_append, ihi hi]
    show ((⟨_, _⟩ : Scan).next .closing).run rest.pieces = _
    rw [ihr hr]
    simp [Forest.width, Forest.closer, Nat.add_assoc]

/-- The moments of a bracket with its closing bracket: the inside is met with one more bracket
open, and so is the closing bracket. -/
theorem moments_bracket {inner : Forest} (hi : inner.Sealed) (s : Scan) (rest : Forest) :
    s.moments (Forest.bracket true inner rest).pieces =
      (s, .opening) :: ((s.next .opening).moments inner.pieces ++
        (⟨s.offset + 1 + inner.width, s.offset :: s.opened⟩, .closing) ::
          (⟨s.offset + 1 + inner.width + 1, s.opened⟩ : Scan).moments rest.pieces) := by
  show (s, .opening) :: (s.next .opening).moments (inner.pieces ++ .closing :: rest.pieces) = _
  rw [moments_append, run_pieces hi]
  rfl

end Scan

/-! ## The moments in the nodes -/

/-- Where the pieces of a node are met, and which brackets are open there. `around` finds the
brackets among the nodes with some numbers. -/
def Node.marks (around : List Nat → List Node) (n : Node) : List (Scan × Lexeme) :=
  let opened := (around n.ancestors).map (·.start)
  match n.shape with
  | .document _ => []
  | .terminal kind text => [(⟨n.start, opened⟩, .terminal kind text)]
  | .bracket closed _ =>
    (⟨n.start, opened⟩, .opening) ::
      if closed then [(⟨n.stop - 1, n.start :: opened⟩, .closing)] else []

theorem Node.marks_closed (around : List Nat → List Node) (id : Nat) (above : List Nat)
    (start : Nat) (inner : Forest) :
    Node.marks around ⟨id, above, start, .bracket true inner⟩ =
      [(⟨start, (around above).map (·.start)⟩, .opening),
       (⟨start + 1 + inner.width, start :: (around above).map (·.start)⟩, .closing)] := by
  have hstop : start + (1 + inner.width + 1) - 1 = start + 1 + inner.width := by omega
  simp [Node.marks, Node.stop, Node.width, Forest.closer, hstop]

def Finds (around : List Nat → List Node) (ns : List Node) : Prop :=
  ∀ n ∈ ns, n.isBracket = true → around (n.id :: n.ancestors) = n :: around n.ancestors

namespace Forest

variable {f : Forest} {above : List Nat} {id start : Nat} {around : List Nat → List Node}

section

variable {closed : Bool} {inner rest : Forest}

theorem finds_inside (ha : Finds around ((bracket closed inner rest).nodes above id start)) :
    Finds around (inner.nodes (id :: above) (id + 1) (start + 1)) := fun n hn =>
  ha n (mem_nodes_bracket.mpr (.inr (.inl hn)))

theorem finds_behind (ha : Finds around ((bracket closed inner rest).nodes above id start)) :
    Finds around (rest.nodes above (id + 1 + inner.size)
      (start + 1 + inner.width + (closer closed).length)) := fun n hn =>
  ha n (mem_nodes_bracket.mpr (.inr (.inr hn)))

end

theorem marks_perm (hf : f.OpenLast) (ha : Finds around (f.nodes above id start)) :
    ((f.nodes above id start).flatMap (Node.marks around)).Perm
      ((⟨start, (around above).map (·.start)⟩ : Scan).moments f.pieces) := by
  induction f generalizing above id start with
  | nil => exact .nil
  | leaf kind text rest ih =>
    exact (ih hf fun n hn => ha n (List.mem_cons_of_mem _ hn)).cons _
  | bracket closed inner rest ihi ihr =>
    -- the node that stands for the bracket is the innermost around what is in it
    have hself := ha _ List.mem_cons_self rfl
    cases closed with
    | false =>
      obtain ⟨hi, rfl⟩ := hf
      have hperm := ihi hi (finds_inside ha)
      rw [hself] at hperm
      simpa [nodes, pieces, Node.marks, Scan.moments] using hperm
    | true =>
      obtain ⟨hi, hr⟩ := hf
      have hpermi := ihi hi.openLast (finds_inside ha)
      have hpermr := ihr hr (finds_behind ha)
      rw [hself] at hpermi
      rw [Scan.moments_bracket hi, nodes, List.flatMap_cons, List.flatMap_append,
        Node.marks_closed, List.cons_append, List.singleton_append]
      refine .cons _ (List.perm_middle.symm.trans ?_)
      exact hpermi.append (hpermr.cons _)

end Forest

/-! ## In the tree of a text -/

namespace Tree

def bracketsAmong (t : Tree) (ids : List Nat) : List Node :=
  (ids.filterMap (t.nodes[·]?)).filter Node.isBracket

theorem finds_bracketsAmong (t : Tree) : Finds t.bracketsAmong t.nodes := by
  intro n hn hb
  simp [bracketsAmong, nodes_at_id hn, hb]

theorem bracketsAmong_root (t : Tree) : t.bracketsAmong [0] = [] := by
  simp [bracketsAmong, nodes_eq, root, Node.isBracket]

/-- The moments of the run over a text are found in the nodes of its tree, with the brackets around
them. -/
theorem marks_perm_moments (cs : List Char) :
    ((ofText cs).nodes.flatMap (Node.marks (ofText cs).bracketsAmong)).Perm
      ((Scan.momentsOf cs).map fun m => (m.1, m.2.settled m.1.depth)) := by
  have hfinds : Finds (ofText cs).bracketsAmong ((ofText cs).forest.nodes [0] 1 0) := by
    intro n hn
    refine finds_bracketsAmong (ofText cs) n ?_
    rw [nodes_eq]
    exact List.mem_cons_of_mem _ hn
  have hperm := Forest.marks_perm (Forest.openLast_ofLexemes _) hfinds
  rw [bracketsAmong_root, Forest.pieces_ofLexemes] at hperm
  rw [nodes_eq, Scan.momentsOf, ← Scan.moments_settle]
  exact hperm

end Tree

end Pddl
