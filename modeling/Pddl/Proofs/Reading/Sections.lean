/-
  Pddl.Proofs.Reading.Sections — what is read of a definition.

  Readers walk from node to node, but of the places of the nodes they need two only: where the
  text behind a keyword is to be cut out, and where the name stands. All the rest is said on the
  forest of the text: which tokens stand in a bracket, what its brackets hold, and what comes
  behind its keyword.
  - `exists_behindKeyword`: what comes behind the keyword of a bracket has its place in the text, and
    its nodes are those behind the keyword;
  - `textAfterKeyword_eq`: for a bracket the cuts are good, and what is cut out is the text of
    what comes behind the keyword, without its comments;
  - `find?_eq`, `words_eq`, `body?_eq`: a definition and its sections are those of the forest;
  - `Domain.read_eq`, `Problem.read_eq`: so the only thing that can go wrong when a text is read
    is that the locator refuses the range of the name.
-/

import Pddl.Domain
import Pddl.Problem
import Pddl.Proofs.Syntax.Matching
import Pddl.Proofs.Syntax.Tiling

namespace Pddl

namespace Forest

/-! ## Tokens, brackets and keywords of a forest -/

def tokens : Forest → List (List Char)
  | nil => []
  | leaf .token text rest => text :: rest.tokens
  | leaf _ _ rest => rest.tokens
  | bracket _ _ rest => rest.tokens

def insides : Forest → List Forest
  | nil => []
  | leaf _ _ rest => rest.insides
  | bracket _ inner rest => inner :: rest.insides

def begins (keyword : String) (f : Forest) : Bool :=
  (f.tokens.head?.map String.ofList).any (Text.sameName · keyword)

def section? (keyword : String) (f : Forest) : Option Forest := f.insides.find? (begins keyword)

def behindToken? : Forest → Option Forest
  | nil => none
  | leaf .token _ rest => some rest
  | leaf _ _ rest => rest.behindToken?
  | bracket _ _ rest => rest.behindToken?

def behindKeyword (f : Forest) : Forest := f.behindToken?.getD f

def wordsOf (keyword : String) (f : Forest) : List String :=
  match f.section? keyword with
  | none => []
  | some s => (s.tokens.drop 1).map String.ofList

def textOf? (keyword : String) (f : Forest) : Option (List Char) :=
  (f.section? keyword).map (·.behindKeyword.uncommented)

/-- The body of the definition in a document whose header has this keyword, and the name in the
header. -/
def definition? (keyword : String) (f : Forest) : Option (Forest × Option String) :=
  (f.section? "define").bind fun body =>
    (body.section? keyword).map fun header => (body, header.tokens[1]?.map String.ofList)

/-- A forest has no token, or a first one. -/
theorem exists_first_token (f : Forest) :
    (f.tokens = [] ∧ f.behindToken? = none) ∨
      ∃ front text rest, f = front ++ leaf .token text rest ∧ front.tokens = [] ∧
        f.behindToken? = some rest := by
  induction f with
  | nil => exact .inl ⟨rfl, rfl⟩
  | leaf kind text rest ih =>
    cases kind with
    | token => exact .inr ⟨nil, text, rest, rfl, rfl, rfl⟩
    | blank | comment =>
      rcases ih with hnone | ⟨front, word, more, rfl, hfront, hmore⟩
      · exact .inl hnone
      · exact .inr ⟨leaf _ text front, word, more, rfl, hfront, hmore⟩
  | bracket closed inner rest _ ih =>
    rcases ih with hnone | ⟨front, word, more, rfl, hfront, hmore⟩
    · exact .inl hnone
    · exact .inr ⟨bracket closed inner front, word, more, rfl, hfront, hmore⟩

/-! ## In the nodes of a forest -/

theorem nodes_append (f g : Forest) (above : List Nat) (id start : Nat) :
    (f ++ g).nodes above id start =
      f.nodes above id start ++ g.nodes above (id + f.size) (start + f.width) := by
  change (f.append g).nodes above id start = _
  induction f generalizing id start with
  | nil => rfl
  | leaf kind text rest ih => simp [append, nodes, size, width, ih, Nat.add_assoc]
  | bracket closed inner rest _ ih => simp [append, nodes, size, width, ih, Nat.add_assoc]

theorem children_append (f g : Forest) (above : List Nat) (id start : Nat) :
    (f ++ g).children above id start =
      f.children above id start ++ g.children above (id + f.size) (start + f.width) := by
  change (f.append g).children above id start = _
  induction f generalizing id start with
  | nil => rfl
  | leaf kind text rest ih => simp [append, children, size, width, ih, Nat.add_assoc]
  | bracket closed inner rest _ ih => simp [append, children, size, width, ih, Nat.add_assoc]

theorem map_text_tokens (f : Forest) (above : List Nat) (id start : Nat) :
    ((f.children above id start).filter Node.isToken).map Node.text = f.tokens := by
  induction f generalizing id start with
  | nil => rfl
  | leaf kind text rest ih =>
    cases kind with
    | token => exact congrArg (text :: ·) (ih _ _)
    | blank | comment => exact ih _ _
  | bracket closed inner rest _ ih => exact ih _ _

theorem map_inner_brackets (f : Forest) (above : List Nat) (id start : Nat) :
    ((f.children above id start).filter Node.isBracket).map Node.inner = f.insides := by
  induction f generalizing id start with
  | nil => rfl
  | leaf kind text rest ih => exact ih _ _
  | bracket closed inner rest _ ih => exact congrArg (inner :: ·) (ih _ _)

end Forest

namespace Node

variable {n b : Node} {keyword : String}

theorem map_text_tokens (n : Node) : n.tokens.map Node.text = n.inner.tokens :=
  Forest.map_text_tokens _ _ _ _

theorem firstToken?_eq (n : Node) : n.firstToken? = n.tokens.head? := (List.head?_filter).symm

theorem firstToken?_eq_none (h : n.inner.tokens = []) : n.firstToken? = none := by
  rw [← n.map_text_tokens, List.map_eq_nil_iff] at h
  rw [firstToken?_eq, h, List.head?_nil]

theorem stop_firstToken? {front rest : Forest} {text : List Char}
    (hinner : n.inner = front ++ .leaf .token text rest) (hfront : front.tokens = []) :
    ∃ t, n.firstToken? = some t ∧ t.stop = n.innerStart + front.width + Text.byteLength text := by
  have hnone :
      (front.children (n.id :: n.ancestors) (n.id + 1) n.innerStart).filter isToken = [] := by
    rw [← List.map_eq_nil_iff (f := Node.text), Forest.map_text_tokens, hfront]
  have htokens : n.tokens = (Forest.children (n.id :: n.ancestors) (n.id + 1 + front.size)
      (n.innerStart + front.width) (.leaf .token text rest)).filter isToken := by
    rw [tokens, children, hinner, Forest.children_append, List.filter_append, hnone,
      List.nil_append]
  rw [firstToken?_eq, htokens]
  exact ⟨_, rfl, rfl⟩

theorem begins_inner (n : Node) (keyword : String) :
    n.inner.begins keyword = n.keyword?.any (Text.sameName · keyword) := by
  rw [Forest.begins, ← n.map_text_tokens, List.head?_map, keyword?, firstToken?_eq, Option.map_map]
  rfl

theorem map_inner_section? (n : Node) (keyword : String) :
    (n.section? keyword).map Node.inner = n.inner.section? keyword := by
  have hinsides : n.inner.insides = n.brackets.map Node.inner :=
    (Forest.map_inner_brackets _ _ _ _).symm
  rw [Forest.section?, hinsides, List.find?_map, section?]
  congr 2
  funext b
  exact (b.begins_inner keyword).symm

theorem mem_of_section? (h : n.section? keyword = some b) : b ∈ n.children ∧ b.isBracket = true :=
  List.mem_filter.mp (List.mem_of_find?_eq_some h)

theorem mem_children_of_mem_tokens (h : b ∈ n.tokens) : b ∈ n.children := (List.mem_filter.mp h).1

end Node

/-! ## The text behind a keyword -/

namespace Tree

variable {cs : List Char} {start stop : Nat}

theorem cutAround_skip {front : List Node} (h : ∀ c ∈ front, c.start < start) (more : List Node) :
    cutAround cs start stop (front ++ more) = cutAround cs start stop more := by
  induction front with
  | nil => rfl
  | cons c front ih =>
    obtain ⟨hc, hfront⟩ := List.forall_mem_cons.mp h
    rw [List.cons_append, cutAround, if_pos hc, ih hfront]

theorem cutAround_comment {c : Node} {before : List Char} (hle : start ≤ c.start)
    (hbefore : Text.slice? start c.start cs = some before) (more : List Node) :
    cutAround cs start stop (c :: more) = (cutAround cs c.stop stop more).map (before ++ ·) := by
  rw [cutAround, if_neg (Nat.not_lt_of_le hle), hbefore]
  cases cutAround cs c.stop stop more <;> simp

def commentsIn (above : List Nat) (id start : Nat) (f : Forest) : List Node :=
  (f.nodes above id start).filter Node.isComment

theorem commentsIn_bracket (above : List Nat) (id start : Nat) (closed : Bool)
    (inner rest : Forest) :
    commentsIn above id start (.bracket closed inner rest) =
      commentsIn (id :: above) (id + 1) (start + 1) inner ++
        commentsIn above (id + 1 + inner.size)
          (start + 1 + inner.width + (Forest.closer closed).length) rest :=
  List.filter_append _ _

theorem byteLength_closer (closed : Bool) :
    Text.byteLength (Forest.closer closed) = (Forest.closer closed).length := by
  cases closed <;> rfl

/-- Cutting around the comments of a forest. What is passed over but not yet cut out is `before` in
front of the forest and `after` behind it. -/
theorem cutAround_comments (stop : Nat) (f : Forest) {a before b : List Char} {start : Nat}
    (above : List Nat) (id : Nat) (hcs : cs = a ++ before ++ f.text ++ b)
    (hstart : start = Text.byteLength a + Text.byteLength before) :
    ∃ a' after cut, cs = a' ++ after ++ b ∧ cut ++ after = before ++ f.uncommented ∧
      ∀ more, cutAround cs (Text.byteLength a) stop (commentsIn above id start f ++ more) =
        (cutAround cs (Text.byteLength a') stop more).map (cut ++ ·) := by
  induction f generalizing a before b start above id with
  | nil =>
    refine ⟨a, before, [], ?_, ?_, ?_⟩
    · simpa [Forest.text] using hcs
    · simp [Forest.uncommented]
    · intro more
      simp [commentsIn, Forest.nodes]
  | leaf kind text rest ih =>
    cases kind with
    | token | blank =>
      -- the terminal is passed over
      have hpassed : cs = a ++ (before ++ text) ++ rest.text ++ b := by
        simpa [Forest.text] using hcs
      have hnext : start + Text.byteLength text =
          Text.byteLength a + Text.byteLength (before ++ text) := by
        rw [Text.byteLength_append]
        omega
      obtain ⟨a', after, cut, hcs', hcut, hmore⟩ := ih above (id + 1) hpassed hnext
      refine ⟨a', after, cut, hcs', ?_, hmore⟩
      simpa [Forest.uncommented] using hcut
    | comment =>
      -- what was passed over is cut out, and cutting goes on behind the comment
      have hbehind : cs = (a ++ before ++ text) ++ [] ++ rest.text ++ b := by
        simpa [Forest.text] using hcs
      have hnext : start + Text.byteLength text = Text.byteLength (a ++ before ++ text) := by
        simp only [Text.byteLength_append]
        omega
      obtain ⟨a', after, cut, hcs', hcut, hmore⟩ := ih above (id + 1) hbehind hnext
      rw [← hnext] at hmore
      have hslice : Text.slice? (Text.byteLength a) start cs = some before := by
        have hmiddle : cs = a ++ before ++ (text ++ rest.text ++ b) := by
          simpa [Forest.text] using hcs
        exact Text.slice?_middle hmiddle rfl hstart
      refine ⟨a', after, before ++ cut, hcs', ?_, fun more => ?_⟩
      · rw [List.append_assoc, hcut]
        simp [Forest.uncommented]
      · calc cutAround cs (Text.byteLength a) stop
              (commentsIn above id start (.leaf .comment text rest) ++ more)
            = (cutAround cs (start + Text.byteLength text) stop
                (commentsIn above (id + 1) (start + Text.byteLength text) rest ++ more)).map
                  (before ++ ·) := cutAround_comment (by show _ ≤ start; omega) hslice _
          _ = (cutAround cs (Text.byteLength a') stop more).map (before ++ cut ++ ·) := by
            rw [hmore more, Option.map_map]
            simp [Function.comp_def]
  | bracket closed inner rest ihi ihr =>
    have hopened : cs = a ++ (before ++ ['(']) ++ inner.text ++
        (Forest.closer closed ++ rest.text ++ b) := by
      simpa [Forest.text] using hcs
    have hinside : start + 1 = Text.byteLength a + Text.byteLength (before ++ ['(']) := by
      rw [Text.byteLength_append]
      exact congrArg (· + 1) hstart
    obtain ⟨a₁, after₁, cut₁, hcs₁, hcut₁, hmore₁⟩ := ihi (id :: above) (id + 1) hopened hinside
    have hclosed : cs = a₁ ++ (after₁ ++ Forest.closer closed) ++ rest.text ++ b := by
      simpa using hcs₁
    have hnext : start + 1 + inner.width + (Forest.closer closed).length =
        Text.byteLength a₁ + Text.byteLength (after₁ ++ Forest.closer closed) := by
      have hlength := congrArg Text.byteLength (hopened.symm.trans hcs₁)
      simp only [Text.byteLength_append, ← Forest.width_eq] at hlength hinside
      rw [Text.byteLength_append, byteLength_closer]
      omega
    obtain ⟨a₂, after₂, cut₂, hcs₂, hcut₂, hmore₂⟩ := ihr above (id + 1 + inner.size) hclosed hnext
    refine ⟨a₂, after₂, cut₁ ++ cut₂, hcs₂, ?_, fun more => ?_⟩
    · rw [List.append_assoc, hcut₂, ← List.append_assoc, ← List.append_assoc, hcut₁]
      simp [Forest.uncommented]
    · rw [commentsIn_bracket, List.append_assoc, hmore₁, hmore₂, Option.map_map]
      simp [Function.comp_def]

/-- What is cut out around all comments of a forest is the forest without them. -/
theorem cutAround_forest (f : Forest) {a b : List Char} {start : Nat} (above : List Nat) (id : Nat)
    (hcs : cs = a ++ f.text ++ b) (hstart : start = Text.byteLength a) :
    cutAround cs start (start + f.width) (commentsIn above id start f) = some f.uncommented := by
  have hnone : cs = a ++ [] ++ f.text ++ b := by rw [List.append_nil, hcs]
  obtain ⟨a', after, cut, hcs', hcut, hmore⟩ :=
    cutAround_comments (start + f.width) f above id hnone hstart
  have hlength := congrArg Text.byteLength (hcs.symm.trans hcs')
  simp only [Text.byteLength_append, ← Forest.width_eq] at hlength
  have hslice : Text.slice? (Text.byteLength a') (start + f.width) cs = some after :=
    Text.slice?_middle hcs' rfl (by omega)
  have hcuts := hmore []
  rw [List.append_nil, cutAround, hslice, Option.map_some, hcut] at hcuts
  rw [hstart] at hcuts ⊢
  exact hcuts

def keywordStop (n : Node) : Nat :=
  match n.firstToken? with
  | some token => token.stop
  | none => n.start + 1

/-- What stands behind the keyword of a bracket takes the rest of its inside, and its nodes are those
in the bracket that come behind the keyword. -/
theorem exists_behindKeyword {n : Node} (hn : n ∈ (ofText cs).nodes) (hb : n.isBracket = true) :
    ∃ a b id passed, cs = a ++ n.inner.behindKeyword.text ++ b ∧
      Text.byteLength a = keywordStop n ∧
      n.innerStop = keywordStop n + n.inner.behindKeyword.width ∧
      n.descendants =
        passed ++ n.inner.behindKeyword.nodes (n.id :: n.ancestors) id (keywordStop n) ∧
      ∀ m ∈ passed, m.stop ≤ keywordStop n := by
  have hkind : (n.isDocument || n.isBracket) = true := by rw [hb, Bool.or_true]
  have hinner : n.innerStart = n.start + 1 := by simp [Node.innerStart, hb]
  have hstop := Node.innerWidth_eq hkind
  obtain ⟨a, b, hcs, ha⟩ := text_at_inner hn
  rw [Node.nestedText_eq hkind] at hcs
  rw [Node.descendants_eq]
  rcases n.inner.exists_first_token with
    ⟨hnone, hbehind⟩ | ⟨front, text, rest, heq, hfront, hbehind⟩
  · have hstart : keywordStop n = n.innerStart := by
      rw [keywordStop, Node.firstToken?_eq_none hnone]
      exact hinner.symm
    rw [hstart, Forest.behindKeyword, hbehind]
    exact ⟨a, b, n.id + 1, [], hcs, ha, hstop, rfl, List.forall_mem_nil _⟩
  · obtain ⟨t, ht, htstop⟩ := Node.stop_firstToken? heq hfront
    have hstart : keywordStop n = n.innerStart + front.width + Text.byteLength text := by
      rw [keywordStop, ht]
      exact htstop
    rw [Forest.behindKeyword, hbehind, Option.getD_some, heq, Forest.nodes_append]
    rw [heq, Forest.text_append, Forest.text] at hcs
    have hwidth : n.inner.width = front.width + Text.byteLength text + rest.width := by
      simp only [heq, Forest.width_eq, Forest.text_append, Forest.text, Text.byteLength_append]
      omega
    refine ⟨a ++ front.text ++ text, b, n.id + 1 + front.size + 1,
      front.nodes (n.id :: n.ancestors) (n.id + 1) n.innerStart ++
        [⟨n.id + 1 + front.size, n.id :: n.ancestors, n.innerStart + front.width,
          .terminal .token text⟩], ?_, ?_, ?_, ?_, ?_⟩
    · rw [hcs]
      simp
    · simp only [Text.byteLength_append, ha, ← Forest.width_eq, hstart]
    · omega
    · simp [Forest.nodes, hstart]
    · intro m hm
      rcases List.mem_append.mp hm with hm | hm
      · have := (Forest.nodes_within hm).2
        omega
      · rw [List.mem_singleton.mp hm, hstart]
        exact Nat.le_refl _

theorem cutAround_keyword {n : Node} (hn : n ∈ (ofText cs).nodes) (hb : n.isBracket = true) :
    cutAround cs (min (keywordStop n) n.innerStop) n.innerStop n.comments =
      some n.inner.behindKeyword.uncommented := by
  obtain ⟨a, b, id, passed, hcs, ha, hstop, hnodes, hpassed⟩ := exists_behindKeyword hn hb
  have hstart : min (keywordStop n) n.innerStop = keywordStop n := by omega
  -- the comments in front of the keyword are passed over
  have hskip : ∀ c ∈ passed.filter Node.isComment, c.start < keywordStop n := by
    intro c hc
    have hmem := (List.mem_filter.mp hc).1
    have hin : c ∈ n.descendants := by
      rw [hnodes]
      exact List.mem_append_left _ hmem
    rw [Node.descendants_eq] at hin
    have hwidth := Forest.width_pos_of_mem (filled_inner_ofText hn) hin
    have hle := hpassed c hmem
    unfold Node.stop at hle
    omega
  have hcomments : n.comments = passed.filter Node.isComment ++
      commentsIn (n.id :: n.ancestors) id (keywordStop n) n.inner.behindKeyword := by
    rw [Node.comments, hnodes, List.filter_append]
    rfl
  rw [hstart, hcomments, cutAround_skip hskip, hstop]
  exact cutAround_forest _ _ _ hcs ha.symm

/-- For a bracket, the text behind the keyword is that of what stands behind its first token, or of
all it holds, without comments. -/
theorem textAfterKeyword_eq {n : Node} (hn : n ∈ (ofText cs).nodes) (hb : n.isBracket = true) :
    (ofText cs).textAfterKeyword n = .ok n.inner.behindKeyword.uncommented := by
  have hcut := cutAround_keyword hn hb
  have hstop : (if n.isClosed then n.stop - 1 else n.stop) = n.innerStop := by
    simp [Node.innerStop, hb]
  have hpos : ¬ (n.isClosed && n.stop == 0) = true := by
    have := start_lt_stop hn (not_document hb)
    simp only [Bool.and_eq_true, beq_iff_eq, not_and]
    omega
  simp only [textAfterKeyword, if_neg hpos, hstop]
  split
  · rename_i cut hfound
    exact congrArg Except.ok (Option.some.inj (hfound.symm.trans hcut))
  · rename_i hnone
    cases hnone.symm.trans hcut

end Tree

/-! ## Definitions -/

namespace Definition

variable {t : Tree} {d : Definition} {keyword : String}

/-- A definition is that of the forest. -/
theorem find?_eq (t : Tree) (keyword : String) :
    (find? t keyword).map (fun d => (d.body.inner, d.nameText?)) =
      t.forest.definition? keyword := by
  have hbody := t.root.map_inner_section? "define"
  rw [find?, Forest.definition?, show t.forest = t.root.inner from rfl, ← hbody]
  cases t.root.section? "define" with
  | none => rfl
  | some body =>
    simp only [Option.map_some, Option.bind_some, ← body.map_inner_section? keyword]
    cases body.section? keyword with
    | none => rfl
    | some header =>
      simp only [Option.map_some, nameText?, ← header.map_text_tokens, List.getElem?_map,
        Option.map_map]
      rfl

theorem body_mem (h : find? t keyword = some d) : d.body ∈ t.nodes := by
  unfold find? at h
  split at h
  · cases h
  · rename_i body hbody
    split at h
    · cases h
    · cases h
      exact Tree.children_subset List.mem_cons_self _ (Node.mem_of_section? hbody).1

theorem name_mem {n : Node} (h : find? t keyword = some d) (hn : d.name? = some n) :
    n ∈ t.nodes := by
  have hbody := body_mem h
  unfold find? at h
  split at h
  · cases h
  · split at h
    · cases h
    · rename_i header hheader
      cases h
      have hmem := Tree.children_subset hbody _ (Node.mem_of_section? hheader).1
      exact Tree.children_subset hmem _
        (Node.mem_children_of_mem_tokens (List.mem_of_getElem? hn))

theorem words_eq (d : Definition) (keyword : String) :
    d.words keyword = d.body.inner.wordsOf keyword := by
  rw [words, Forest.wordsOf, ← d.body.map_inner_section? keyword]
  cases d.body.section? keyword with
  | none => rfl
  | some s =>
    simp only [Option.map_some, ← s.map_text_tokens, ← List.map_drop, List.map_map]
    rfl

/-- The text behind the keyword of a section is always found. -/
theorem body?_eq {cs : List Char} (hd : d.body ∈ (Tree.ofText cs).nodes) (keyword : String) :
    d.body? (Tree.ofText cs) keyword = .ok (d.body.inner.textOf? keyword) := by
  rw [body?, Forest.textOf?, ← d.body.map_inner_section? keyword]
  cases hsection : d.body.section? keyword with
  | none => rfl
  | some s =>
    obtain ⟨hmem, hbracket⟩ := Node.mem_of_section? hsection
    simp only [Tree.textAfterKeyword_eq (Tree.children_subset hd s hmem) hbracket, Option.map_some]
    rfl

end Definition

/-! ## Domains and problems -/

/-- Reads the definition whose header has a keyword, and builds something of its name, the range of
the name and its body. -/
def Definition.readAs {α : Type} (build : Option String → Option Range → Forest → α)
    (keyword : String) (s : Source) : Except Fault (Option α) :=
  match find? s.tree keyword with
  | none => .ok none
  | some d =>
    (d.nameRange? s.locator).map fun range? => some (build d.nameText? range? d.body.inner)

def Domain.ofBody (root : String) (name? : Option String) (range? : Option Range) (body : Forest) :
    Domain where
  name? := name?
  nameRange? := range?
  requirements := body.wordsOf ":requirements"
  types := ((body.textOf? ":types").map (Hierarchy.ofText root)).getD Digraph.empty
  constants := ((body.textOf? ":constants").map Catalog.ofText).getD Catalog.empty

def Problem.ofBody (name? : Option String) (range? : Option Range) (body : Forest) : Problem where
  name? := name?
  nameRange? := range?
  domain? := (body.wordsOf ":domain").head?
  objects := ((body.textOf? ":objects").map Catalog.ofText).getD Catalog.empty

theorem Domain.read_eq {cs : List Char} {s : Source} (hs : s.tree = Tree.ofText cs)
    (root : String) : Domain.read root s = Definition.readAs (ofBody root) "domain" s := by
  rw [Domain.read, Definition.readAs]
  cases hfind : Definition.find? s.tree "domain" with
  | none => rfl
  | some d =>
    have hbody := Definition.body_mem hfind
    rw [hs] at hbody
    simp only [hs, Definition.body?_eq hbody, Definition.words_eq]
    cases d.nameRange? s.locator <;> rfl

theorem Problem.read_eq {cs : List Char} {s : Source} (hs : s.tree = Tree.ofText cs) :
    Problem.read s = Definition.readAs ofBody "problem" s := by
  rw [Problem.read, Definition.readAs]
  cases hfind : Definition.find? s.tree "problem" with
  | none => rfl
  | some d =>
    have hbody := Definition.body_mem hfind
    rw [hs] at hbody
    simp only [hs, Definition.body?_eq hbody, Definition.words_eq]
    cases d.nameRange? s.locator <;> rfl

end Pddl
