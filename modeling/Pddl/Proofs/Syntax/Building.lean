/-
  Pddl.Proofs.Syntax.Building — the table of a text, built from the left.

  The table of a tree lists nodes of a forest that is already there. It can as well be built while
  the pieces of a text are read from the left (`Building`): a row is added at the end, with the
  innermost open node as its parent, and is entered as a child there; an opening bracket becomes the
  innermost open node, and a closing bracket closes it. What is left open in the end runs to the end
  of the text. The two links of a row are written separately, the parent once and the children one
  by one, while the nodes that are open come and go.
  - `Within.next`: at every moment a node is open, and the open nodes have rows;
  - `grown_leaf`, `grown_closed`, `finish_grown_unclosed`: one step puts one more node of a forest
    into the innermost open node (`grown`);
  - `run_pieces`, `finish_run_pieces`: so the pieces of a forest put all its nodes there;
  - `run_builds_table`: whatever pieces were read, finishing gives the table of their tree, and the
    open nodes are the brackets of this tree without their closing brackets, and the document.
-/

import Pddl.Proofs.Syntax.Matching
import Pddl.Proofs.Syntax.Table

namespace Pddl

/-! ## Changing one row -/

section Modify

variable {α : Type} {change : α → α}

theorem modify_append {i : Nat} {xs : List α} (hi : i < xs.length) (ys : List α) :
    (xs ++ ys).modify i change = xs.modify i change ++ ys := by
  induction xs generalizing i with
  | nil => exact absurd hi (Nat.not_lt_zero i)
  | cons x xs ih =>
    cases i with
    | zero => rfl
    | succ i =>
      rw [List.cons_append, List.modify_succ_cons, ih (Nat.lt_of_succ_lt_succ hi),
        List.modify_succ_cons, List.cons_append]

theorem modify_middle (xs ys : List α) (x : α) :
    (xs ++ x :: ys).modify xs.length change = xs ++ change x :: ys := by
  induction xs with
  | nil => rfl
  | cons y xs ih =>
    rw [List.cons_append, List.length_cons, List.modify_succ_cons, ih, List.cons_append]

end Modify

def Row.adopt (ids : List Nat) (r : Row) : Row := { r with children := r.children ++ ids }

theorem modify_adopt (rows : List Row) (i : Nat) (as bs : List Nat) :
    (rows.modify i (Row.adopt as)).modify i (Row.adopt bs) =
      rows.modify i (Row.adopt (as ++ bs)) := by
  rw [List.modify_modify_eq]
  congr 1
  funext r
  simp [Row.adopt]

theorem modify_adopt_nil (rows : List Row) (i : Nat) : rows.modify i (Row.adopt []) = rows := by
  have hid : Row.adopt [] = id := by
    funext r
    simp [Row.adopt]
  rw [hid, List.modify_id]

def stopAt (stop : Nat) (ids : List Nat) (rows : List Row) : List Row :=
  ids.foldl (fun rows i => rows.modify i fun r => { r with stop := stop }) rows

/-! ## Building -/

@[ext] structure Building where
  rows : List Row
  /-- The numbers of the nodes that are open, the innermost first and the document last. -/
  opened : List Nat
  offset : Nat

namespace Building

def start : Building := ⟨[⟨.document, 0, 0, true, none, []⟩], [0], 0⟩

def current (b : Building) : Nat := b.opened.headD 0

/-- The rows with the next number entered as a child of the innermost open node. -/
def entered (b : Building) : List Row := b.rows.modify b.current (Row.adopt [b.rows.length])

def push (b : Building) (kind : NodeKind) (stop : Nat) (closed : Bool) : List Row :=
  b.entered ++ [⟨kind, b.offset, stop, closed, some b.current, []⟩]

def next (b : Building) (piece : Lexeme) : Building :=
  let offset := b.offset + Text.byteLength piece.text
  match piece with
  | .terminal kind _ => ⟨b.push (.terminal kind) offset true, b.opened, offset⟩
  | .opening => ⟨b.push .bracket b.offset false, b.rows.length :: b.opened, offset⟩
  | .closing =>
    match b.opened with
    | id :: outer :: rest =>
      ⟨b.rows.modify id fun r => { r with stop := offset, closed := true }, outer :: rest, offset⟩
    | _ => ⟨b.push (.terminal .token) offset true, b.opened, offset⟩

def run (b : Building) (ls : List Lexeme) : Building := ls.foldl next b

/-- What is left open runs to the end, and so does the document. -/
def finish (b : Building) : List Row := stopAt b.offset b.opened b.rows

theorem run_append (b : Building) (as bs : List Lexeme) : b.run (as ++ bs) = (b.run as).run bs :=
  List.foldl_append

theorem next_opening (b : Building) :
    b.next .opening =
      ⟨b.push .bracket b.offset false, b.rows.length :: b.opened, b.offset + 1⟩ := rfl

theorem next_closing {b : Building} {id outer : Nat} {rest : List Nat}
    (h : b.opened = id :: outer :: rest) :
    b.next .closing =
      ⟨b.rows.modify id fun r => { r with stop := b.offset + 1, closed := true }, outer :: rest,
        b.offset + 1⟩ := by
  simp only [next, h]
  rfl

structure Within (b : Building) : Prop where
  nonempty : b.opened ≠ []
  lt_length : ∀ i ∈ b.opened, i < b.rows.length

variable {b : Building} {kind : NodeKind} {stop : Nat} {closed : Bool}

theorem length_entered (b : Building) : b.entered.length = b.rows.length := List.length_modify ..

theorem length_push : (b.push kind stop closed).length = b.rows.length + 1 := by
  rw [push, List.length_append, length_entered, List.length_singleton]

theorem within_start : start.Within := ⟨List.cons_ne_nil _ _, by decide⟩

theorem Within.current_mem (hb : b.Within) : b.current ∈ b.opened := by
  obtain ⟨id, outer, hopened⟩ := List.exists_cons_of_ne_nil hb.nonempty
  rw [current, hopened]
  exact List.mem_cons_self

theorem Within.head? (hb : b.Within) : b.opened.head? = some b.current := by
  obtain ⟨id, outer, hopened⟩ := List.exists_cons_of_ne_nil hb.nonempty
  rw [current, hopened]
  rfl

theorem Within.current_lt (hb : b.Within) : b.current < b.rows.length :=
  hb.lt_length _ hb.current_mem

/-- One step keeps the open nodes within the table, and leaves one of them open. -/
theorem Within.next (hb : b.Within) (piece : Lexeme) : (b.next piece).Within := by
  have hpushed : ∀ i ∈ b.opened, i < b.rows.length + 1 := fun i hi =>
    Nat.lt_succ_of_lt (hb.lt_length i hi)
  cases piece with
  | terminal kind text =>
    refine ⟨hb.nonempty, fun i hi => ?_⟩
    rw [Building.next, length_push]
    exact hpushed i hi
  | opening =>
    refine ⟨List.cons_ne_nil _ _, fun i hi => ?_⟩
    rw [Building.next, length_push]
    rcases List.mem_cons.mp hi with rfl | hi
    · exact Nat.lt_succ_self _
    · exact hpushed i hi
  | closing =>
    rw [Building.next]
    split
    · rename_i id outer rest hopened
      refine ⟨List.cons_ne_nil _ _, fun i hi => ?_⟩
      rw [List.length_modify]
      exact hb.lt_length i (hopened ▸ List.mem_cons_of_mem _ hi)
    · refine ⟨hb.nonempty, fun i hi => ?_⟩
      rw [length_push]
      exact hpushed i hi

/-! ## The nodes of a forest in the innermost open node -/

def nodesOf (b : Building) (f : Forest) : List Node := f.nodes b.opened b.rows.length b.offset

def childrenOf (b : Building) (f : Forest) : List Node :=
  f.children b.opened b.rows.length b.offset

/-- What is there when all nodes of a forest have been put into the innermost open node. -/
def grown (b : Building) (f : Forest) : Building where
  rows := b.rows.modify b.current (Row.adopt ((b.childrenOf f).map (·.id))) ++
    (b.nodesOf f).map Node.row
  opened := b.opened
  offset := b.offset + f.width

theorem grown_nil (b : Building) : b.grown .nil = b := by
  obtain ⟨rows, opened, offset⟩ := b
  simp [grown, childrenOf, nodesOf, Forest.children, Forest.nodes, Forest.width, modify_adopt_nil]

variable {f inner rest : Forest}

/-- What is entered in the innermost open node later leaves the rows behind it as they are. -/
theorem Within.adopt_entered (hb : b.Within) (ids : List Nat) (rows : List Row) :
    (b.entered ++ rows).modify b.current (Row.adopt ids) =
      b.rows.modify b.current (Row.adopt (b.rows.length :: ids)) ++ rows := by
  have hlt : b.current < b.entered.length := by
    rw [length_entered]
    exact hb.current_lt
  rw [modify_append hlt, entered, modify_adopt]
  rfl

theorem modify_entered (b : Building) (change : Row → Row) (r : Row) (rows : List Row) :
    (b.entered ++ r :: rows).modify b.rows.length change = b.entered ++ change r :: rows := by
  rw [← length_entered]
  exact modify_middle b.entered rows r

theorem within_grown (hb : b.Within) (f : Forest) : (b.grown f).Within := by
  refine ⟨hb.nonempty, fun i hi => ?_⟩
  have := hb.lt_length i hi
  rw [grown, List.length_append, List.length_modify]
  omega

theorem nodesOf_leaf (b : Building) (kind : Terminal) (text : List Char) (rest : Forest) :
    b.nodesOf (.leaf kind text rest) =
      ⟨b.rows.length, b.opened, b.offset, .terminal kind text⟩ ::
        (b.next (.terminal kind text)).nodesOf rest := by
  simp only [nodesOf, Forest.nodes, next, length_push, Lexeme.text]

theorem nodesOf_bracket (b : Building) (closed : Bool) (inner rest : Forest) :
    b.nodesOf (.bracket closed inner rest) =
      ⟨b.rows.length, b.opened, b.offset, .bracket closed inner⟩ ::
        ((b.next .opening).nodesOf inner ++
          rest.nodes b.opened (b.rows.length + 1 + inner.size)
            (b.offset + 1 + inner.width + (Forest.closer closed).length)) := by
  rw [nodesOf, nodesOf, next_opening, length_push]
  rfl

/-- A terminal puts its row there, and what follows goes on behind it. -/
theorem grown_leaf (hb : b.Within) (kind : Terminal) (text : List Char) (rest : Forest) :
    (b.next (.terminal kind text)).grown rest = b.grown (.leaf kind text rest) := by
  have hrow : Node.row ⟨b.rows.length, b.opened, b.offset, .terminal kind text⟩ =
      ⟨.terminal kind, b.offset, b.offset + Text.byteLength text, true, some b.current, []⟩ := by
    rw [← hb.head?]
    rfl
  apply Building.ext
  · show (b.push _ _ _).modify b.current _ ++ _ = b.rows.modify b.current _ ++ _
    rw [push, hb.adopt_entered, nodesOf_leaf, List.map_cons, hrow, List.append_assoc]
    simp only [childrenOf, Forest.children, next, length_push, Lexeme.text, List.map_cons,
      List.singleton_append]
  · rfl
  · simp [grown, next, Lexeme.text, Forest.width, Nat.add_assoc]

/-- The rows of a bracket in the innermost open node: its own with what it holds. -/
def withBracket (b : Building) (stop : Nat) (closed : Bool) (inner : Forest) : List Row :=
  b.entered ++
    ⟨.bracket, b.offset, stop, closed, some b.current,
      ((b.next .opening).childrenOf inner).map (·.id)⟩ ::
    ((b.next .opening).nodesOf inner).map Node.row

/-- Changing the row of the bracket leaves those around it as they are. -/
theorem modify_withBracket {stop stop' : Nat} {closed closed' : Bool} {change : Row → Row}
    (hchange : ∀ children,
      change ⟨.bracket, b.offset, stop, closed, some b.current, children⟩ =
        ⟨.bracket, b.offset, stop', closed', some b.current, children⟩) (inner : Forest) :
    (b.withBracket stop closed inner).modify b.rows.length change =
      b.withBracket stop' closed' inner := by
  rw [withBracket, modify_entered, hchange]
  rfl

theorem rows_opening (b : Building) (inner : Forest) :
    ((b.next .opening).grown inner).rows = b.withBracket b.offset false inner := by
  show (b.push _ _ _).modify b.rows.length _ ++ _ = _
  rw [push, modify_entered, List.append_assoc]
  rfl

theorem length_withBracket (b : Building) (stop : Nat) (closed : Bool) (inner : Forest) :
    (b.withBracket stop closed inner).length = b.rows.length + 1 + inner.size := by
  have hnodes : ((b.next .opening).nodesOf inner).length = inner.size := by
    rw [← List.length_map (f := fun n : Node => n.id), nodesOf, Forest.map_id_nodes,
      List.length_range']
  simp only [withBracket, List.length_append, length_entered, List.length_cons, List.length_map,
    hnodes]
  omega

/-- The nodes of a bracket put their rows there, and those behind it follow. -/
theorem Within.rows_grown_bracket (hb : b.Within) (closed : Bool) (inner rest : Forest) :
    let id := b.rows.length + 1 + inner.size
    let offset := b.offset + 1 + inner.width + (Forest.closer closed).length
    (b.grown (.bracket closed inner rest)).rows =
      (b.withBracket offset closed inner).modify b.current
          (Row.adopt ((rest.children b.opened id offset).map (·.id))) ++
        (rest.nodes b.opened id offset).map Node.row := by
  intro id offset
  have hchildren : (b.next .opening).childrenOf inner =
      inner.children (b.rows.length :: b.opened) (b.rows.length + 1) (b.offset + 1) := by
    rw [childrenOf, next_opening, length_push]
  have hrow : Node.row ⟨b.rows.length, b.opened, b.offset, .bracket closed inner⟩ =
      ⟨.bracket, b.offset, offset, closed, some b.current,
        ((b.next .opening).childrenOf inner).map (·.id)⟩ := by
    have hstop : offset = b.offset + (1 + inner.width + (Forest.closer closed).length) := by
      simp only [offset]
      omega
    rw [hstop, hchildren, ← hb.head?]
    rfl
  have hnodes : b.nodesOf (.bracket closed inner rest) =
      (⟨b.rows.length, b.opened, b.offset, .bracket closed inner⟩ ::
        (b.next .opening).nodesOf inner) ++ rest.nodes b.opened id offset :=
    nodesOf_bracket b closed inner rest
  rw [withBracket, hb.adopt_entered, List.append_assoc, ← hrow, grown, hnodes, List.map_append,
    List.map_cons]
  rfl

/-- A closing bracket completes the bracket, which is then no longer open. -/
theorem closing_grown (hb : b.Within) (inner : Forest) :
    let offset := b.offset + 1 + inner.width + 1
    ((b.next .opening).grown inner).next .closing =
      ⟨b.withBracket offset true inner, b.opened, offset⟩ := by
  intro offset
  obtain ⟨id, outer, hopened⟩ := List.exists_cons_of_ne_nil hb.nonempty
  have hopening : ((b.next .opening).grown inner).opened = b.rows.length :: id :: outer := by
    rw [← hopened]
    rfl
  have hclosed : (b.withBracket b.offset false inner).modify b.rows.length
      (fun r => { r with stop := offset, closed := true }) = b.withBracket offset true inner :=
    modify_withBracket (fun _ => rfl) inner
  rw [next_closing hopening, hopened, rows_opening, ← hclosed]
  rfl

theorem grown_closed (hb : b.Within) (inner rest : Forest) :
    (((b.next .opening).grown inner).next .closing).grown rest =
      b.grown (.bracket true inner rest) := by
  rw [closing_grown hb]
  apply Building.ext
  · rw [hb.rows_grown_bracket true inner rest, ← length_withBracket]
    rfl
  · rfl
  · simp [grown, Forest.width, Forest.closer, Nat.add_assoc]

/-- A bracket that is never closed stops where the reading stops. -/
theorem finish_grown_unclosed (hb : b.Within) (inner : Forest) :
    ((b.next .opening).grown inner).finish = (b.grown (.bracket false inner .nil)).finish := by
  have hoffset : (b.grown (.bracket false inner .nil)).offset = b.offset + 1 + inner.width := by
    simp [grown, Forest.width, Forest.closer, Nat.add_assoc]
  have hrows : (b.grown (.bracket false inner .nil)).rows =
      b.withBracket (b.offset + 1 + inner.width) false inner := by
    rw [hb.rows_grown_bracket false inner .nil]
    simp [Forest.children, Forest.nodes, Forest.closer, modify_adopt_nil]
  have hstopped : (b.withBracket b.offset false inner).modify b.rows.length
      (fun r => { r with stop := b.offset + 1 + inner.width }) =
        b.withBracket (b.offset + 1 + inner.width) false inner :=
    modify_withBracket (fun _ => rfl) inner
  unfold finish
  rw [hoffset, hrows, rows_opening, ← hstopped]
  rfl

/-! ## Reading the pieces of a forest -/

/-- Reading a forest that has all its closing brackets puts its nodes into the innermost open
node. -/
theorem run_pieces (hf : f.Sealed) (hb : b.Within) : b.run f.pieces = b.grown f := by
  induction f generalizing b with
  | nil => exact (grown_nil b).symm
  | leaf kind text rest ih =>
    show (b.next (.terminal kind text)).run rest.pieces = _
    rw [ih hf (hb.next _), grown_leaf hb]
  | bracket closed inner rest ihi ihr =>
    obtain ⟨rfl, hi, hr⟩ := hf
    have hopening := hb.next .opening
    show (b.next .opening).run (inner.pieces ++ .closing :: rest.pieces) = _
    rw [run_append, ihi hi hopening]
    show (((b.next .opening).grown inner).next .closing).run rest.pieces = _
    rw [ihr hr ((within_grown hopening inner).next _), grown_closed hb]

/-- The same of a forest with brackets left open, when the reading is finished. -/
theorem finish_run_pieces (hf : f.OpenLast) (hb : b.Within) :
    (b.run f.pieces).finish = (b.grown f).finish := by
  induction f generalizing b with
  | nil => rw [grown_nil]; rfl
  | leaf kind text rest ih =>
    show ((b.next (.terminal kind text)).run rest.pieces).finish = _
    rw [ih hf (hb.next _), grown_leaf hb]
  | bracket closed inner rest ihi ihr =>
    have hopening := hb.next .opening
    cases closed with
    | true =>
      obtain ⟨hi, hr⟩ := hf
      show ((b.next .opening).run (inner.pieces ++ .closing :: rest.pieces)).finish = _
      rw [run_append, run_pieces hi hopening]
      show ((((b.next .opening).grown inner).next .closing).run rest.pieces).finish = _
      rw [ihr hr ((within_grown hopening inner).next _), grown_closed hb]
    | false =>
      obtain ⟨hi, rfl⟩ := hf
      show ((b.next .opening).run (inner.pieces ++ [])).finish = _
      rw [List.append_nil, ihi hi hopening, finish_grown_unclosed hb]

/-- Behind a forest the brackets that it leaves open are open, and what was open before it. -/
theorem opened_run_pieces (hf : f.OpenLast) (hb : b.Within) :
    (b.run f.pieces).opened =
      (((b.nodesOf f).filter (!·.isClosed)).map (·.id)).reverse ++ b.opened := by
  induction f generalizing b with
  | nil => rfl
  | leaf kind text rest ih =>
    show ((b.next (.terminal kind text)).run rest.pieces).opened = _
    rw [ih hf (hb.next _), nodesOf_leaf, List.filter_cons_of_neg (by simp [Node.isClosed])]
    rfl
  | bracket closed inner rest ihi ihr =>
    have hopening := hb.next .opening
    cases closed with
    | true =>
      obtain ⟨hi, hr⟩ := hf
      have hinner : ((b.next .opening).nodesOf inner).filter (!·.isClosed) = [] := by
        rw [List.filter_eq_nil_iff]
        intro n hn
        simp [Forest.isClosed_of_sealed hi hn]
      show ((b.next .opening).run (inner.pieces ++ .closing :: rest.pieces)).opened = _
      rw [run_append, run_pieces hi hopening]
      show ((((b.next .opening).grown inner).next .closing).run rest.pieces).opened = _
      rw [ihr hr ((within_grown hopening inner).next _), nodesOf_bracket,
        List.filter_cons_of_neg (by simp [Node.isClosed]), List.filter_append, hinner,
        closing_grown hb, nodesOf, length_withBracket]
      rfl
    | false =>
      obtain ⟨hi, rfl⟩ := hf
      show ((b.next .opening).run (inner.pieces ++ [])).opened = _
      rw [List.append_nil, ihi hi hopening, nodesOf_bracket, Forest.nodes, List.append_nil,
        List.filter_cons_of_pos (by simp [Node.isClosed]), List.map_cons, List.reverse_cons,
        List.append_assoc]
      rfl

/-! ## Reading any pieces -/

def depth (b : Building) : Nat := b.opened.tail.length

/-- A closing bracket that closes nothing leads where a token leads. -/
theorem next_settled (b : Building) (piece : Lexeme) :
    b.next (piece.settled b.depth) = b.next piece := by
  unfold Lexeme.settled
  split
  · rename_i h
    obtain ⟨rfl, hdepth⟩ := h
    obtain ⟨rows, opened, offset⟩ := b
    cases opened with
    | nil => rfl
    | cons id outer =>
      obtain rfl : outer = [] := List.eq_nil_of_length_eq_zero hdepth
      rfl
  · rfl

theorem Within.depth_next (hb : b.Within) (piece : Lexeme) :
    (b.next piece).depth = piece.depthAfter b.depth := by
  obtain ⟨rows, opened, offset⟩ := b
  obtain ⟨id, outer, rfl⟩ := List.exists_cons_of_ne_nil hb.nonempty
  cases piece with
  | terminal | opening => rfl
  | closing =>
    cases outer with
    | nil => rfl
    | cons outer rest => rfl

theorem run_settle (hb : b.Within) (ls : List Lexeme) :
    b.run (Lexeme.settle b.depth ls) = b.run ls := by
  induction ls generalizing b with
  | nil => rfl
  | cons piece ls ih =>
    show (b.next (piece.settled b.depth)).run (Lexeme.settle (piece.depthAfter b.depth) ls) = _
    rw [next_settled, ← hb.depth_next, ih (hb.next piece)]
    rfl

theorem within_run (hb : b.Within) (ls : List Lexeme) : (b.run ls).Within := by
  induction ls generalizing b with
  | nil => exact hb
  | cons piece ls ih => exact ih (hb.next piece)

theorem finish_grown_start (text : List Char) (f : Forest) :
    (start.grown f).finish = (⟨text, f⟩ : Tree).table := by
  have hroot : (⟨text, f⟩ : Tree).root.row =
      ⟨.document, 0, 0 + f.width, true, none, (start.childrenOf f).map (·.id)⟩ := by
    rw [Nat.zero_add]
    simp [Node.row, Tree.root, Node.kind, Node.stop, Node.width, Node.isClosed, Node.parent?,
      Node.children, Node.inner, Node.innerStart, Node.isBracket, childrenOf, start]
  rw [Tree.table, Tree.nodes_eq, List.map_cons, hroot]
  rfl

/-- Whatever pieces were read, the open nodes are in the table; they are the brackets without their
closing brackets in the tree of these pieces, the innermost first, and the document; and when they
stop at the end, the table is that of the tree. -/
theorem run_builds_table (ls : List Lexeme) :
    let b := start.run ls
    let t : Tree := ⟨ls.flatMap Lexeme.text, Forest.ofLexemes ls⟩
    b.Within ∧ b.opened = ((t.nodes.filter (!·.isClosed)).map (·.id)).reverse ++ [0] ∧
      b.finish = t.table := by
  intro b t
  have hopen := Forest.openLast_ofLexemes ls
  have hpieces : start.run (Forest.ofLexemes ls).pieces = b := by
    rw [Forest.pieces_ofLexemes]
    exact run_settle within_start ls
  refine ⟨within_run within_start ls, ?_, ?_⟩
  · have hopened := opened_run_pieces hopen within_start
    rw [hpieces] at hopened
    rw [Tree.nodes_eq, List.filter_cons_of_neg (by simp [Tree.root, Node.isClosed])]
    exact hopened
  · have hfinish := finish_run_pieces hopen within_start
    rw [hpieces] at hfinish
    rw [hfinish]
    exact finish_grown_start _ _

end Building

/-- The table of a text is what reading its pieces from the left builds. -/
theorem Tree.finish_run_lexemes (cs : List Char) :
    (Building.start.run (Lexeme.lexemes cs)).finish = (ofText cs).table := by
  obtain ⟨-, -, hfinish⟩ := Building.run_builds_table (Lexeme.lexemes cs)
  rw [hfinish, Lexeme.text_lexemes]
  rfl

end Pddl
