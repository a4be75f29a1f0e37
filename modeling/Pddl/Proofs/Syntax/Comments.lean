/-
  Pddl.Proofs.Syntax.Comments — a text without its comments.

  A comment stands behind a blank, a bracket or the start of the text, never right behind a token,
  and in front of a line end. Taken out, it lets nothing meet but two blanks, and these become one
  (`strip`). All the rest is read again as it was.
  - `Fits.strip`: what is left fits where the forest with its comments did;
  - `ofText_uncommented`: so it is the forest of the text that is left;
  - `outline_strip`: the brackets and tokens are the same, in the same order and in the same
    brackets (`Node.outline`);
  - `stripping_keeps_outline`: all of it for the document and the brackets of a text.
-/

import Pddl.Proofs.Syntax.Fitting

namespace Pddl

namespace Forest

/-- Puts a blank in front of a forest; a blank that stands there already becomes part of it. -/
def consBlank (text : List Char) : Forest → Forest
  | leaf .blank more rest => leaf .blank (text ++ more) rest
  | rest => leaf .blank text rest

def strip : Forest → Forest
  | nil => nil
  | leaf .comment _ rest => rest.strip
  | leaf .blank text rest => consBlank text rest.strip
  | leaf .token text rest => leaf .token text rest.strip
  | bracket closed inner rest => bracket closed inner.strip rest.strip

/-! ## What is left is read as it was -/

section

variable {text : List Char} {f : Forest}

theorem text_consBlank (text : List Char) (f : Forest) :
    (consBlank text f).text = text ++ f.text := by
  unfold consBlank
  split <;> simp [Forest.text]

theorem sealed_consBlank (hf : f.Sealed) : (consBlank text f).Sealed := by
  unfold consBlank
  split <;> exact hf

theorem openLast_consBlank (hf : f.OpenLast) : (consBlank text f).OpenLast := by
  unfold consBlank
  split <;> exact hf

theorem text_strip (f : Forest) : f.strip.text = f.uncommented := by
  induction f with
  | nil => rfl
  | leaf kind text rest ih =>
    cases kind with
    | comment => exact ih
    | blank => rw [strip, text_consBlank, ih]; rfl
    | token => rw [strip, Forest.text, ih]; rfl
  | bracket closed inner rest ihi ihr => rw [strip, Forest.text, ihi, ihr]; rfl

theorem Sealed.strip (hf : f.Sealed) : f.strip.Sealed := by
  induction f with
  | nil => trivial
  | leaf kind text rest ih =>
    cases kind with
    | comment => exact ih hf
    | blank => exact sealed_consBlank (ih hf)
    | token => exact ih hf
  | bracket closed inner rest ihi ihr => exact ⟨hf.1, ihi hf.2.1, ihr hf.2.2⟩

theorem OpenLast.strip (hf : f.OpenLast) : f.strip.OpenLast := by
  induction f with
  | nil => trivial
  | leaf kind text rest ih =>
    cases kind with
    | comment => exact ih hf
    | blank => exact openLast_consBlank (ih hf)
    | token => exact ih hf
  | bracket closed inner rest ihi ihr =>
    cases closed with
    | true => exact ⟨hf.1.strip, ihr hf.2⟩
    | false =>
      obtain ⟨hi, rfl⟩ := hf
      exact ⟨ihi hi, rfl⟩

end

section

variable {f : Forest} {depth : Nat} {closed : Bool}

theorem head_closer (closed : Bool) : ∀ c ∈ (closer closed).head?, c = ')' := by
  cases closed <;> simp [closer]

/-- A blank goes in front of all that fits. -/
theorem Fits.consBlank {text : List Char} (hne : text ≠ [])
    (hblank : ∀ c ∈ text, Text.isBlank c = true) (hf : f.Fits depth closed) :
    (consBlank text f).Fits depth closed := by
  have hparen : Text.isBlank '(' = false := by decide
  have hclose : Text.isBlank ')' = false := by decide
  have hsemi : Text.isBlank ';' = false := by decide
  cases f with
  | nil =>
    refine ⟨⟨hne, hblank, fun c hc => ?_⟩, trivial⟩
    rw [head_closer closed c hc, hclose]
  | bracket closed' inner rest =>
    refine ⟨⟨hne, hblank, fun c hc => ?_⟩, hf⟩
    cases hc
    exact hparen
  | leaf kind more rest =>
    cases kind with
    | blank =>
      obtain ⟨⟨-, hmore, hrest⟩, hfits⟩ := hf
      refine ⟨⟨List.append_ne_nil_of_left_ne_nil hne _, ?_, hrest⟩, hfits⟩
      intro c hc
      exact (List.mem_append.mp hc).elim (hblank c) (hmore c)
    | comment =>
      refine ⟨⟨hne, hblank, fun c hc => ?_⟩, hf⟩
      obtain ⟨body, rfl⟩ := List.head?_eq_some_iff.mp hf.1.1
      cases hc
      exact hsemi
    | token =>
      refine ⟨⟨hne, hblank, fun c hc => ?_⟩, hf⟩
      rcases hf.1 with ⟨rfl, -⟩ | ⟨hmore, hchars, -⟩
      · cases hc
        exact hclose
      · obtain ⟨d, more, rfl⟩ := List.exists_cons_of_ne_nil hmore
        obtain rfl : d = c := Option.some.inj hc
        exact (hchars d List.mem_cons_self).1

/-- Where no comment stands first, the first character stays. -/
theorem head?_strip (hf : f.Fits depth closed)
    (hfirst : ∀ c ∈ (f.text ++ closer closed).head?, c ≠ ';') :
    (f.strip.text ++ closer closed).head? = (f.text ++ closer closed).head? := by
  cases f with
  | nil | bracket => rfl
  | leaf kind text rest =>
    cases kind with
    | comment =>
      obtain ⟨body, rfl⟩ := List.head?_eq_some_iff.mp hf.1.1
      exact absurd rfl (hfirst ';' rfl)
    | blank =>
      obtain ⟨c, text, rfl⟩ := List.exists_cons_of_ne_nil hf.1.1
      rw [strip, text_consBlank]
      rfl
    | token =>
      have hne : text ≠ [] := by
        rcases hf.1 with ⟨rfl, -⟩ | ⟨hne, -⟩
        · exact List.cons_ne_nil _ _
        · exact hne
      obtain ⟨c, text, rfl⟩ := List.exists_cons_of_ne_nil hne
      rfl

theorem Fits.strip (hf : f.Fits depth closed) : f.strip.Fits depth closed := by
  induction f generalizing depth closed with
  | nil => trivial
  | bracket closed' inner rest ihi ihr => exact ⟨ihi hf.1, ihr hf.2⟩
  | leaf kind text rest ih =>
    cases kind with
    | comment => exact ih hf.2
    | blank => exact (ih hf.2).consBlank hf.1.1 hf.1.2.1
    | token =>
      refine ⟨?_, ih hf.2⟩
      rcases hf.1 with hstray | ⟨hne, hchars, hhead, hrest⟩
      · exact .inl hstray
      · -- a comment never stands right behind a token
        have hsemi : ∀ c ∈ (rest.text ++ closer closed).head?, c ≠ ';' := by
          rintro c hc rfl
          have := hrest ';' hc
          revert this
          decide
        refine .inr ⟨hne, hchars, hhead, ?_⟩
        rw [head?_strip hf.2 hsemi]
        exact hrest

/-- What is read from a text without its comments is what was read, without its comments. -/
theorem ofText_uncommented (hopen : f.OpenLast) (hf : f.Fits 0 false) :
    ofText f.uncommented = f.strip := by
  rw [← text_strip]
  exact ofText_text hopen.strip hf.strip

end

/-! ## No comment is left -/

def CommentFree : Forest → Prop
  | nil => True
  | leaf kind _ rest => kind ≠ .comment ∧ rest.CommentFree
  | bracket _ inner rest => inner.CommentFree ∧ rest.CommentFree

theorem commentFree_strip (f : Forest) : f.strip.CommentFree := by
  induction f with
  | nil => trivial
  | bracket closed inner rest ihi ihr => exact ⟨ihi, ihr⟩
  | leaf kind text rest ih =>
    cases kind with
    | comment => exact ih
    | token => exact ⟨Terminal.noConfusion, ih⟩
    | blank =>
      rw [strip]
      unfold consBlank
      split
      · rename_i hrest
        rw [hrest] at ih
        exact ih
      · exact ⟨Terminal.noConfusion, ih⟩

theorem CommentFree.uncommented {f : Forest} (hf : f.CommentFree) : f.uncommented = f.text := by
  induction f with
  | nil => rfl
  | leaf kind text rest ih => rw [Forest.uncommented, if_neg hf.1, ih hf.2, Forest.text]
  | bracket closed inner rest ihi ihr =>
    rw [Forest.uncommented, ihi hf.1, ihr hf.2, Forest.text]

theorem CommentFree.isComment {f : Forest} (hf : f.CommentFree) {above : List Nat} {id start : Nat}
    {n : Node} (h : n ∈ f.nodes above id start) : n.isComment = false := by
  induction f generalizing above id start with
  | nil => cases h
  | leaf kind text rest ih =>
    rcases List.mem_cons.mp h with rfl | h
    · simpa [Node.isComment, Node.isTerminal] using hf.1
    · exact ih hf.2 h
  | bracket closed inner rest ihi ihr =>
    rcases mem_nodes_bracket.mp h with rfl | h | h
    · rfl
    · exact ihi hf.1 h
    · exact ihr hf.2 h

end Forest

/-! ## Brackets and tokens -/

inductive Sign where
  | bracket (closed : Bool)
  | token (text : List Char)
  deriving DecidableEq, Repr

def Node.sign? (n : Node) : Option Sign :=
  match n.shape with
  | .bracket closed _ => some (.bracket closed)
  | .terminal .token text => some (.token text)
  | _ => none

/-- A bracket or a token with its depth below nodes that have `base` nodes around them. -/
def Node.entry? (base : Nat) (n : Node) : Option (Nat × Sign) :=
  n.sign?.map (n.ancestors.length - base, ·)

/-- The brackets and tokens in a node, in order, each with its depth in the node: a child has depth
one. -/
def Node.outline (n : Node) : List (Nat × Sign) :=
  n.descendants.filterMap (Node.entry? n.ancestors.length)

namespace Forest

def outline (depth : Nat) : Forest → List (Nat × Sign)
  | nil => []
  | leaf .token text rest => (depth, .token text) :: rest.outline depth
  | leaf _ _ rest => rest.outline depth
  | bracket closed inner rest =>
    (depth, .bracket closed) :: (inner.outline (depth + 1) ++ rest.outline depth)

theorem filterMap_nodes (f : Forest) {base : Nat} {above : List Nat} (hbase : base ≤ above.length)
    (id start : Nat) :
    (f.nodes above id start).filterMap (Node.entry? base) = f.outline (above.length - base) := by
  induction f generalizing above id start with
  | nil => rfl
  | leaf kind text rest ih =>
    cases kind with
    | token => exact congrArg (_ :: ·) (ih hbase _ _)
    | blank | comment => exact ih hbase _ _
  | bracket closed inner rest ihi ihr =>
    have hle : base ≤ (id :: above).length := Nat.le_succ_of_le hbase
    have hdepth : (id :: above).length - base = above.length - base + 1 := by
      rw [List.length_cons]
      omega
    refine congrArg (_ :: ·) ?_
    rw [List.filterMap_append, ihi hle, ihr hbase, hdepth]

theorem outline_consBlank (depth : Nat) (text : List Char) (f : Forest) :
    (consBlank text f).outline depth = f.outline depth := by
  unfold consBlank
  split <;> rfl

theorem outline_strip (f : Forest) (depth : Nat) : f.strip.outline depth = f.outline depth := by
  induction f generalizing depth with
  | nil => rfl
  | leaf kind text rest ih =>
    cases kind with
    | comment => exact ih depth
    | blank => rw [strip, outline_consBlank]; exact ih depth
    | token => rw [strip, outline, ih]; rfl
  | bracket closed inner rest ihi ihr => rw [strip, outline, ihi, ihr]; rfl

end Forest

namespace Node

theorem outline_eq (n : Node) : n.outline = n.inner.outline 1 := by
  have hdepth : (n.id :: n.ancestors).length - n.ancestors.length = 1 := by
    rw [List.length_cons]
    omega
  rw [outline, descendants_eq, Forest.filterMap_nodes _ (Nat.le_succ _), hdepth]

theorem uncommented_alone {n : Node} (h : (n.isDocument || n.isBracket) = true) :
    n.alone.uncommented = n.uncommented := by
  obtain ⟨id, ancestors, start, shape⟩ := n
  cases shape with
  | terminal => cases h
  | document => rfl
  | bracket => simp [alone, uncommented, Forest.uncommented]

end Node

/-! ## In the tree of a text -/

namespace Tree

/-- Leaving the comments out of a document or a bracket keeps what is in it. The text that is left
has no comments, and leaving out comments once more changes nothing. Read again, it has the same
brackets, closed or not, and the same tokens, in the same order and at the same depth: in the
document if a document was stripped, and else in the bracket that is the only child of it. -/
theorem stripping_keeps_outline (cs : List Char) (n : Node) (hn : n ∈ (ofText cs).nodes)
    (hkind : (n.isDocument || n.isBracket) = true) :
    (∀ m ∈ (ofText n.uncommented).nodes, m.isComment = false) ∧
    (ofText n.uncommented).root.uncommented = n.uncommented ∧
    ∃ m ∈ (ofText n.uncommented).nodes,
      (n.isDocument = true → m = (ofText n.uncommented).root) ∧
      (n.isBracket = true → (ofText n.uncommented).root.children = [m]) ∧
      m.kind = n.kind ∧ m.isClosed = n.isClosed ∧ m.outline = n.outline := by
  obtain ⟨hopen, hfits⟩ := alone_fits hn hkind
  have hforest : (ofText n.uncommented).forest = n.alone.strip := by
    rw [← Node.uncommented_alone hkind]
    exact Forest.ofText_uncommented hopen hfits
  refine ⟨?_, ?_, ?_⟩
  · intro m hm
    rw [nodes_eq, hforest] at hm
    rcases List.mem_cons.mp hm with rfl | hm
    · rfl
    · exact n.alone.commentFree_strip.isComment hm
  · show (ofText n.uncommented).forest.uncommented = _
    rw [hforest, n.alone.commentFree_strip.uncommented, Forest.text_strip,
      Node.uncommented_alone hkind]
  · rw [nodes_eq, root, hforest]
    obtain ⟨id, ancestors, start, shape⟩ := n
    cases shape with
    | terminal => cases hkind
    | document inner =>
      refine ⟨_, List.mem_cons_self, fun _ => rfl, (fun h => by cases h), rfl, rfl, ?_⟩
      rw [Node.outline_eq, Node.outline_eq]
      exact inner.outline_strip 1
    | bracket closed inner =>
      refine ⟨_, List.mem_cons_of_mem _ List.mem_cons_self, (fun h => by cases h), fun _ => rfl,
        rfl, rfl, ?_⟩
      rw [Node.outline_eq, Node.outline_eq]
      exact inner.outline_strip 1

/-- A bracket left open, with a comment that hides a closing bracket. -/
theorem a_hidden_bracket_stays_hidden :
    let s := "(a \r\n(b".toList
    ∃ n ∈ (ofText "(a ;x)\r\n(b".toList).nodes, n.isBracket = true ∧ n.uncommented = s ∧
      (∀ m ∈ (ofText s).nodes, m.isComment = false) ∧ (ofText s).root.uncommented = s ∧
      ∃ m, (ofText s).root.children = [m] ∧ m.kind = .bracket ∧ m.isClosed = false ∧
        m.outline = [(1, .token ['a']), (1, .bracket false), (2, .token ['b'])] := by
  intro s
  obtain ⟨n, hn, hbracket, hkind, hopen, htext, houtline⟩ :
      ∃ n ∈ (ofText "(a ;x)\r\n(b".toList).nodes,
        n.isBracket = true ∧ n.kind = .bracket ∧ n.isClosed = false ∧ n.uncommented = s ∧
        n.outline = [(1, .token ['a']), (1, .bracket false), (2, .token ['b'])] := by
    decide +kernel
  obtain ⟨hfree, hagain, m, -, -, honly, hmkind, hclosed, hsame⟩ :=
    stripping_keeps_outline _ n hn (by rw [hbracket, Bool.or_true])
  rw [htext] at hfree hagain honly
  exact ⟨n, hn, hbracket, htext, hfree, hagain, m, honly hbracket, hmkind.trans hkind,
    hclosed.trans hopen, hsame.trans houtline⟩

end Tree

end Pddl
