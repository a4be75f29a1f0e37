/-
  Pddl.Proofs.Reading.Writing — reading what was written.

  What a text says is a script: words and brackets, in order. A script is laid out with blanks and
  comments between its words and brackets, wherever they do not run into a word (`Laid`).
  - `Laid.script_ofText`: in whatever way a script is laid out, the same script is read;
  - `words_uncommented`: where only words stand in a bracket, the words of its text are its tokens,
    so that it does not matter whether a section is read by its tokens or by its text;
  - `reading_undoes_writing`: so of a written definition the name and the sections are read.
-/

import Pddl.Proofs.Position.Ranges
import Pddl.Proofs.Syntax.Comments
import Pddl.Proofs.Text.Words

namespace Pddl

theorem Text.sameName_congr {a b : String} (h : sameName a b = true) (c : String) :
    sameName a c = sameName b c ∧ sameName c a = sameName c b := by
  simp only [sameName, sameName_iff.mp h, and_self]

inductive Script where
  | nil
  | word (text : String) (rest : Script)
  | group (inner rest : Script)
  deriving DecidableEq, Repr

namespace Script

def words : List String → Script
  | [] => nil
  | w :: ws => word w (words ws)

def groups : List Script → Script
  | [] => nil
  | s :: ss => group s (groups ss)

def sectionOf (keyword : String) (ws : List String) : Script := word keyword (words ws)

def definition (define kind name : String) (sections : List Script) : Script :=
  group (word define (group (sectionOf kind [name]) (groups sections))) nil

def texts : Script → List String
  | nil => []
  | word text rest => text :: rest.texts
  | group _ rest => rest.texts

def parts : Script → List Script
  | nil => []
  | word _ rest => rest.parts
  | group inner rest => inner :: rest.parts

def begins (keyword : String) (s : Script) : Bool := s.texts.head?.any (Text.sameName · keyword)

/-- Among some sections one with this keyword is there at most once. It holds the given words, if
it is there. -/
inductive Once (keyword : String) : Option (List String) → List Script → Prop
  | absent {sections : List Script} (hothers : ∀ s ∈ sections, s.begins keyword = false) :
    Once keyword none sections
  | present (spelled : String) (ws : List String) (before after : List Script)
    (hkeyword : Text.sameName spelled keyword = true)
    (hothers : ∀ s ∈ before ++ after, s.begins keyword = false) :
    Once keyword (some ws) (before ++ sectionOf spelled ws :: after)

def IsWord (text : List Char) : Prop :=
  text ≠ [] ∧ (∀ c ∈ text, Text.isBlank c = false ∧ c ≠ '(' ∧ c ≠ ')') ∧ text.head? ≠ some ';'

instance (text : List Char) : Decidable (IsWord text) :=
  -- the characters of the text are looked at, not all characters there are
  letI : Decidable (∀ c ∈ text, Text.isBlank c = false ∧ c ≠ '(' ∧ c ≠ ')') :=
    List.decidableBAll _ text
  inferInstanceAs (Decidable (_ ∧ _ ∧ _))

/-- A text in which a script is laid out. Right behind a word (`touching`) there can be neither
another word nor a comment. A comment goes to the end of its line. -/
inductive Laid : Bool → Script → List Char → Prop
  | done (touching : Bool) : Laid touching nil []
  | blank (touching : Bool) (c : Char) {s : Script} {cs : List Char}
    (hblank : Text.isBlank c = true) (hrest : Laid false s cs) : Laid touching s (c :: cs)
  | comment (body : List Char) {s : Script} {cs : List Char} (hbody : '\n' ∉ body)
    (hrest : Laid false s cs) : Laid false s (';' :: body ++ '\n' :: cs)
  | word (text : String) {rest : Script} {cs : List Char} (hword : IsWord text.toList)
    (hrest : Laid true rest cs) : Laid false (word text rest) (text.toList ++ cs)
  | group (touching : Bool) {inner rest : Script} {cs cs' : List Char}
    (hinner : Laid false inner cs) (hrest : Laid false rest cs') :
    Laid touching (group inner rest) ('(' :: cs ++ ')' :: cs')

theorem texts_words (ws : List String) : (words ws).texts = ws := by
  induction ws with
  | nil => rfl
  | cons w ws ih => exact congrArg (w :: ·) ih

theorem parts_words (ws : List String) : (words ws).parts = [] := by
  induction ws with
  | nil => rfl
  | cons w ws ih => exact ih

theorem parts_groups (ss : List Script) : (groups ss).parts = ss := by
  induction ss with
  | nil => rfl
  | cons s ss ih => exact congrArg (s :: ·) ih

theorem begins_sectionOf (keyword spelled : String) (ws : List String) :
    (sectionOf spelled ws).begins keyword = Text.sameName spelled keyword := rfl

theorem begins_of_sameName {spelled name keyword : String} (h : Text.sameName spelled name = true)
    (hother : Text.sameName name keyword = false) (ws : List String) :
    (sectionOf spelled ws).begins keyword = false := by
  rw [begins_sectionOf, (Text.sameName_congr h keyword).1, hother]

theorem Once.find? {keyword : String} {ws? : Option (List String)} {sections : List Script}
    (h : Once keyword ws? sections) :
    ∃ spelled, sections.find? (begins keyword) = ws?.map (sectionOf spelled) := by
  cases h with
  | absent hothers =>
    refine ⟨keyword, List.find?_eq_none.mpr fun s hs => ?_⟩
    rw [hothers s hs]
    exact Bool.false_ne_true
  | present spelled ws before after hkeyword hothers =>
    have hbefore : before.find? (begins keyword) = none := by
      refine List.find?_eq_none.mpr fun s hs => ?_
      rw [hothers s (List.mem_append_left _ hs)]
      exact Bool.false_ne_true
    refine ⟨spelled, ?_⟩
    rw [List.find?_append, hbefore, Option.none_or, List.find?_cons, begins_sectionOf, hkeyword]
    rfl

end Script

/-! ## A script is read as it was written -/

namespace Forest

def script : Forest → Script
  | nil => .nil
  | leaf .token text rest => .word (String.ofList text) rest.script
  | leaf _ _ rest => rest.script
  | bracket _ inner rest => .group inner.script rest.script

theorem script_consBlank (text : List Char) (f : Forest) :
    (consBlank text f).script = f.script := by
  unfold consBlank
  split <;> rfl

theorem texts_script (f : Forest) : f.script.texts = f.tokens.map String.ofList := by
  induction f with
  | nil => rfl
  | leaf kind text rest ih =>
    cases kind with
    | token => exact congrArg (String.ofList text :: ·) ih
    | blank | comment => exact ih
  | bracket closed inner rest _ ih => exact ih

theorem parts_script (f : Forest) : f.script.parts = f.insides.map script := by
  induction f with
  | nil => rfl
  | leaf kind text rest ih => cases kind <;> exact ih
  | bracket closed inner rest _ ih => exact congrArg (inner.script :: ·) ih

theorem map_script_section? (keyword : String) (f : Forest) :
    (f.section? keyword).map script = f.script.parts.find? (Script.begins keyword) := by
  rw [section?, parts_script, List.find?_map]
  congr 2
  funext g
  rw [Function.comp_apply, Script.begins, texts_script, List.head?_map]
  rfl

end Forest

namespace Script

open Forest (consBlank script_consBlank text_consBlank sealed_consBlank head_closer)

variable {touching : Bool} {s : Script} {cs : List Char}

theorem Laid.head_behind_word (h : Laid true s cs) :
    ∀ c ∈ cs.head?, Text.isBlank c = true ∨ c = '(' := by
  rintro c hc
  cases h with
  | done => cases hc
  | blank _ _ hblank => cases hc; exact .inl hblank
  | group => cases hc; exact .inr rfl

/-- A comment is the whole line, or the line without a carriage return at its end. -/
theorem fits_comment {body : List Char} (hbody : '\n' ∉ body) (f : Forest)
    (hf : ∀ depth closed, f.Fits depth closed) :
    ∃ comment lineEnd, comment ++ lineEnd = ';' :: body ++ ['\n'] ∧
      ∀ depth closed, (Forest.leaf .comment comment (consBlank lineEnd f)).Fits depth closed := by
  have hlf : Text.isBlank '\n' = true := by decide
  have hcr : Text.isBlank '\r' = true := by decide
  by_cases hlast : (';' :: body).getLast? = some '\r'
  · obtain ⟨line, hline⟩ := List.getLast?_eq_some_iff.mp hlast
    obtain ⟨d, line, rfl⟩ : ∃ d rest, line = d :: rest := by
      cases line with
      | nil => cases hline
      | cons d rest => exact ⟨d, rest, rfl⟩
    obtain ⟨rfl, rfl⟩ := List.cons.inj hline
    refine ⟨';' :: line, ['\r', '\n'], by simp, fun depth closed => ⟨⟨rfl, ?_, ?_⟩, ?_⟩⟩
    · have hline : '\n' ∉ line := fun hmem => hbody (List.mem_append_left _ hmem)
      simp [hline]
    · rw [text_consBlank]
      exact .inr (.inl ⟨_, rfl⟩)
    · exact (hf depth closed).consBlank (by simp) (by simp [hlf, hcr])
  · refine ⟨';' :: body, ['\n'], rfl, fun depth closed => ⟨⟨rfl, ?_, ?_⟩, ?_⟩⟩
    · simp [hbody]
    · rw [text_consBlank]
      exact .inr (.inr ⟨⟨_, rfl⟩, hlast⟩)
    · exact (hf depth closed).consBlank (by simp) (by simp [hlf])

/-- A text in which a script is laid out is that of a forest which says the script, and fits
wherever it is put. -/
theorem Laid.exists_forest (h : Laid touching s cs) :
    ∃ f : Forest, f.text = cs ∧ f.script = s ∧ f.Sealed ∧ ∀ depth closed, f.Fits depth closed := by
  induction h with
  | done => exact ⟨.nil, rfl, rfl, trivial, fun _ _ => trivial⟩
  | blank _ c hblank _ ih =>
    obtain ⟨f, rfl, rfl, hsealed, hfits⟩ := ih
    refine ⟨consBlank [c] f, text_consBlank _ _, script_consBlank _ _, sealed_consBlank hsealed, ?_⟩
    exact fun depth closed => (hfits depth closed).consBlank (by simp) (by simpa using hblank)
  | comment body hbody _ ih =>
    obtain ⟨f, rfl, rfl, hsealed, hfits⟩ := ih
    obtain ⟨comment, lineEnd, htext, hfits'⟩ := fits_comment hbody f hfits
    refine ⟨.leaf .comment comment (consBlank lineEnd f), ?_, script_consBlank _ _,
      sealed_consBlank hsealed, hfits'⟩
    rw [Forest.text, text_consBlank, ← List.append_assoc, htext]
    simp
  | word text hword hrest ih =>
    obtain ⟨f, rfl, rfl, hsealed, hfits⟩ := ih
    refine ⟨.leaf .token text.toList f, rfl, ?_, hsealed, fun depth closed => ⟨.inr ?_, hfits _ _⟩⟩
    · rw [Forest.script, String.ofList_toList]
    · obtain ⟨hne, hchars, hhead⟩ := hword
      refine ⟨hne, hchars, hhead, fun c hc => ?_⟩
      cases hf : f.text with
      | nil =>
        rw [hf] at hc
        exact .inr (.inr (head_closer closed c hc))
      | cons d ds =>
        rw [hf] at hc hrest
        exact (hrest.head_behind_word c hc).imp_right .inl
  | group _ _ _ ihi ihr =>
    obtain ⟨f, rfl, rfl, hsealed, hfits⟩ := ihi
    obtain ⟨g, rfl, rfl, hsealed', hfits'⟩ := ihr
    refine ⟨.bracket true f g, ?_, rfl, ⟨rfl, hsealed, hsealed'⟩,
      fun depth closed => ⟨hfits _ _, hfits' _ _⟩⟩
    simp [Forest.text, Forest.closer]

/-- In whatever way a script is laid out, the same script is read. -/
theorem Laid.script_ofText (h : Laid touching s cs) : (Forest.ofText cs).script = s := by
  obtain ⟨f, rfl, hscript, hsealed, hfits⟩ := h.exists_forest
  rw [Forest.ofText_text hsealed.openLast (hfits 0 false), hscript]

end Script

/-! ## The words of a section -/

namespace Forest

variable {f g : Forest} {depth : Nat} {closed : Bool}

theorem Fits.insides (hf : f.Fits depth closed) (hg : g ∈ f.insides) :
    ∃ closed', g.Fits (depth + 1) closed' := by
  induction f with
  | nil => cases hg
  | leaf kind text rest ih => exact ih hf.2 hg
  | bracket closed' inner rest _ ih =>
    rcases List.mem_cons.mp hg with rfl | hg
    · exact ⟨closed', hf.1⟩
    · exact ih hf.2 hg

theorem Fits.behindToken? (hf : f.Fits depth closed) (hg : f.behindToken? = some g) :
    g.Fits depth closed ∧ f.tokens.drop 1 = g.tokens ∧ (f.insides = [] → g.insides = []) := by
  induction f with
  | nil => cases hg
  | leaf kind text rest ih =>
    cases kind with
    | token => cases hg; exact ⟨hf.2, rfl, id⟩
    | blank | comment => exact ih hf.2 hg
  | bracket closed' inner rest _ ih =>
    obtain ⟨hfits, htokens, -⟩ := ih hf.2 hg
    exact ⟨hfits, htokens, nofun⟩

/-- Where only words stand in a bracket, a word ends at a blank. -/
theorem Fits.head_behind_word (hf : f.Fits (depth + 1) closed) (hwords : f.insides = [])
    (hnext : ∀ c ∈ (f.text ++ closer closed).head?, Text.isBlank c = true ∨ c = '(' ∨ c = ')') :
    ∀ c ∈ f.uncommented.head?, Text.isBlank c = true := by
  have hsemi : ¬ (Text.isBlank ';' = true ∨ ';' = '(' ∨ ';' = ')') := by decide
  intro c hc
  cases f with
  | nil => cases hc
  | bracket => cases hwords
  | leaf kind text rest =>
    cases kind with
    | comment =>
      obtain ⟨body, rfl⟩ := List.head?_eq_some_iff.mp hf.1.1
      exact absurd (hnext ';' rfl) hsemi
    | blank =>
      obtain ⟨hne, hblank, -⟩ := hf.1
      obtain ⟨d, text, rfl⟩ := List.exists_cons_of_ne_nil hne
      obtain rfl : d = c := Option.some.inj hc
      exact hblank d List.mem_cons_self
    | token =>
      rcases hf.1 with ⟨-, hdepth⟩ | ⟨hne, hchars, -⟩
      · cases hdepth
      · obtain ⟨d, text, rfl⟩ := List.exists_cons_of_ne_nil hne
        obtain ⟨hink, hopen, hclose⟩ := hchars d List.mem_cons_self
        rcases hnext d rfl with hblank | rfl | rfl
        · rw [hink] at hblank
          cases hblank
        · exact absurd rfl hopen
        · exact absurd rfl hclose

/-- Where only words stand in a bracket, they are the words of its text. -/
theorem words_uncommented (hf : f.Fits (depth + 1) closed) (hwords : f.insides = []) :
    Text.words f.uncommented = f.tokens := by
  induction f with
  | nil => rfl
  | bracket => cases hwords
  | leaf kind text rest ih =>
    have hrest := ih hf.2 hwords
    cases kind with
    | comment => exact hrest
    | blank => exact (Text.words_blanks hf.1.2.1 _).trans hrest
    | token =>
      rcases hf.1 with ⟨-, hdepth⟩ | ⟨hne, hchars, -, hnext⟩
      · cases hdepth
      · have hword : Text.Unbroken text := ⟨hne, fun c hc => (hchars c hc).1⟩
        have hbehind := hf.2.head_behind_word hwords hnext
        exact (Text.words_word hword hbehind).trans (congrArg (text :: ·) hrest)

theorem words_behindKeyword (hf : f.Fits (depth + 1) closed) (hwords : f.insides = []) :
    Text.words f.behindKeyword.uncommented = f.tokens.drop 1 := by
  rw [behindKeyword]
  cases hbehind : f.behindToken? with
  | some g =>
    obtain ⟨hfits, htokens, hinsides⟩ := hf.behindToken? hbehind
    rw [htokens]
    exact words_uncommented hfits (hinsides hwords)
  | none =>
    have hnone : f.tokens = [] := by
      rcases f.exists_first_token with ⟨hnone, -⟩ | ⟨_, _, _, -, -, hsome⟩
      · exact hnone
      · rw [hbehind] at hsome
        cases hsome
    rw [hnone]
    exact (words_uncommented hf hwords).trans hnone

end Forest

/-! ## Sections -/

theorem Hierarchy.ofText_congr (root : String) {a b : List Char}
    (h : TypedList.groups a = TypedList.groups b) : ofText root a = ofText root b := by
  simp only [ofText, h]

theorem Catalog.ofText_congr {a b : List Char} (h : TypedList.groups a = TypedList.groups b) :
    ofText a = ofText b := by
  simp only [ofText, h]

namespace Forest

variable {f : Forest} {header : Script} {sections : List Script} {keyword : String}
  {ws? : Option (List String)}

section

variable (hparts : f.script.parts = header :: sections) (hheader : header.begins keyword = false)
  (honce : Script.Once keyword ws? sections)

include hparts hheader honce

/-- A section that was written is found, and holds its keyword and its words. -/
theorem section?_written :
    (ws? = none ∧ f.section? keyword = none) ∨
      ∃ ws g, ws? = some ws ∧ f.section? keyword = some g ∧
        g.tokens.drop 1 = ws.map String.toList ∧ g.insides = [] := by
  obtain ⟨spelled, hfind⟩ := honce.find?
  have hsection : (f.section? keyword).map script = ws?.map (Script.sectionOf spelled) := by
    rw [map_script_section?, hparts, List.find?_cons, hheader]
    exact hfind
  cases ws? with
  | none => exact .inl ⟨rfl, Option.map_eq_none_iff.mp hsection⟩
  | some ws =>
    obtain ⟨g, hg, hscript⟩ := Option.map_eq_some_iff.mp hsection
    refine .inr ⟨ws, g, rfl, hg, ?_, ?_⟩
    · have htexts := g.texts_script
      rw [hscript, Script.sectionOf, Script.texts, Script.texts_words] at htexts
      have htokens := congrArg (fun texts => (texts.drop 1).map String.toList) htexts
      simpa [Function.comp_def] using htokens.symm
    · have hinsides := g.parts_script
      rw [hscript, Script.sectionOf, Script.parts, Script.parts_words] at hinsides
      exact List.map_eq_nil_iff.mp hinsides.symm

theorem wordsOf_written : f.wordsOf keyword = ws?.getD [] := by
  rcases section?_written hparts hheader honce with
    ⟨rfl, hnone⟩ | ⟨ws, g, rfl, hsome, htokens, -⟩
  · simp only [wordsOf, hnone, Option.getD_none]
  · simp [wordsOf, hsome, htokens, Function.comp_def]

/-- A section that is read as a typed list can as well be read from its words with single blanks
between them. -/
theorem textOf?_written {β : Type} {depth : Nat} {closed : Bool} (hf : f.Fits depth closed)
    (read : List Char → β)
    (hread : ∀ a b, TypedList.groups a = TypedList.groups b → read a = read b) :
    (f.textOf? keyword).map read = ws?.map fun ws => read (Text.joined " " ws).toList := by
  rcases section?_written hparts hheader honce with
    ⟨rfl, hnone⟩ | ⟨ws, g, rfl, hsome, htokens, hinsides⟩
  · simp only [textOf?, hnone, Option.map_none]
  · obtain ⟨closed', hg⟩ := hf.insides (List.mem_of_find?_eq_some hsome)
    have hwords := (words_behindKeyword hg hinsides).trans htokens
    simp only [textOf?, hsome, Option.map_some]
    exact congrArg some (hread _ _ (TypedList.groups_joined hwords))

end

/-- A written definition is found, and its name. -/
theorem definition?_written {define kind name : String}
    (hscript : f.script = Script.definition define kind name sections)
    (hdefine : Text.sameName define "define" = true) :
    ∃ body ∈ f.insides, body.script.parts = Script.sectionOf kind [name] :: sections ∧
      f.definition? kind = some (body, some name) := by
  have hbody := f.map_script_section? "define"
  rw [hscript, Script.definition, Script.parts, List.find?_cons, Script.begins, Script.texts,
    List.head?_cons, Option.any_some, hdefine] at hbody
  obtain ⟨body, hbody, hbodyScript⟩ := Option.map_eq_some_iff.mp hbody
  have hparts : body.script.parts = Script.sectionOf kind [name] :: sections := by
    rw [hbodyScript]
    exact congrArg (_ :: ·) (Script.parts_groups sections)
  have hheader := body.map_script_section? kind
  have hsame : Text.sameName kind kind = true := Text.sameName_iff.mpr rfl
  rw [hparts, List.find?_cons, Script.begins_sectionOf, hsame] at hheader
  obtain ⟨header, hheader, hheaderScript⟩ := Option.map_eq_some_iff.mp hheader
  have htokens := header.texts_script
  rw [hheaderScript] at htokens
  refine ⟨body, List.mem_of_find?_eq_some hbody, hparts, ?_⟩
  simp only [definition?, hbody, Option.bind_some, hheader, Option.map_some, ← List.getElem?_map,
    ← htokens]
  rfl

end Forest

namespace Definition

theorem find?_of_sameName (t : Tree) {keyword keyword' : String}
    (h : Text.sameName keyword keyword' = true) : find? t keyword = find? t keyword' := by
  have hsection : ∀ n : Node, n.section? keyword = n.section? keyword' := by
    intro n
    simp only [Node.section?, (Text.sameName_congr h _).2]
  simp only [find?, hsection]

/-- What is read of a written definition is built of its name and its body. -/
theorem readAs_written {cs : List Char} {s : Source} {define kind name : String}
    {sections : List Script} (hs : s.tree = Tree.ofText cs)
    (hdefine : Text.sameName define "define" = true)
    (hlaid : Script.Laid false (Script.definition define kind name sections) cs) :
    ∃ n ∈ (Tree.ofText cs).nodes, n.text = name.toList ∧ ∃ body closed, Forest.Fits 1 closed body ∧
      body.script.parts = Script.sectionOf kind [name] :: sections ∧
      ∀ (α : Type) (build : Option String → Option Range → Forest → α) (keyword : String),
        Text.sameName kind keyword = true →
          readAs build keyword s =
            (Tree.rangeOf s.locator n).map fun r => some (build (some name) (some r) body) := by
  obtain ⟨body, hbody, hparts, hdefinition⟩ :=
    Forest.definition?_written hlaid.script_ofText hdefine
  obtain ⟨closed, hfits⟩ := (Forest.fits_ofText cs).insides hbody
  have hfind := find?_eq (Tree.ofText cs) kind
  rw [show (Tree.ofText cs).forest = Forest.ofText cs from rfl, hdefinition] at hfind
  obtain ⟨d, hd, hparsed⟩ := Option.map_eq_some_iff.mp hfind
  obtain ⟨rfl, hname⟩ := Prod.mk.inj hparsed
  obtain ⟨n, hn, htext⟩ := Option.map_eq_some_iff.mp hname
  refine ⟨n, name_mem hd hn, ?_, d.body.inner, closed, hfits, hparts, ?_⟩
  · rw [← htext, String.toList_ofList]
  · intro α build keyword hkeyword
    rw [readAs, hs, ← find?_of_sameName _ hkeyword, hd]
    simp only [hname, nameRange?, hn]
    cases Tree.rangeOf s.locator n <;> rfl

end Definition

namespace Script

/-- Reading undoes writing. A text says `(define (kind name) section ...)`, in whatever way it is
laid out and whatever the case of its keywords. Then the name stands in the text between two
offsets, and all that can go wrong when it is read is that these have no range: in a text of less
than 2³² bytes with its own locator they have one. A domain is read with its name and the words of
its requirements, with the types and constants that are declared by the words of these sections
joined by blanks, and with empty ones where there is no such section. A problem is read with its
name, the name of its domain and the objects that are declared. Other sections do not matter. -/
theorem reading_undoes_writing (cs : List Char) (s : Source) (define kind name : String)
    (sections : List Script) (hs : s.tree = Tree.ofText cs)
    (hdefine : Text.sameName define "define" = true)
    (hlaid : Laid false (definition define kind name sections) cs) :
    ∃ start stop, Text.slice? start stop cs = some name.toList ∧
      (s.locator = Locator.ofText cs → Text.byteLength cs < UInt32.size →
        ∃ r, s.locator.rangeOf start stop = .ok r) ∧
      (∀ root requirements? types? constants?, Text.sameName kind "domain" = true →
        Once ":requirements" requirements? sections →
        Once ":types" types? sections → Once ":constants" constants? sections →
        Domain.read root s = (s.locator.rangeOf start stop).map fun r => some
          { name? := some name
            nameRange? := some r
            requirements := requirements?.getD []
            types := (types?.map fun ws =>
              Hierarchy.ofText root (Text.joined " " ws).toList).getD Digraph.empty
            constants := (constants?.map fun ws =>
              Catalog.ofText (Text.joined " " ws).toList).getD Catalog.empty }) ∧
      ∀ domain? objects?, Text.sameName kind "problem" = true →
        Once ":domain" (domain?.map ([·])) sections →
        Once ":objects" objects? sections →
        Problem.read s = (s.locator.rangeOf start stop).map fun r => some
          { name? := some name
            nameRange? := some r
            domain? := domain?
            objects := (objects?.map fun ws =>
              Catalog.ofText (Text.joined " " ws).toList).getD Catalog.empty } := by
  obtain ⟨n, hn, htext, body, closed, hfits, hparts, hread⟩ :=
    Definition.readAs_written hs hdefine hlaid
  refine ⟨n.start, n.stop, ?_, ?_, ?_, ?_⟩
  · rw [Tree.slice?_node hn, htext]
  · intro hlocator hsize
    obtain ⟨r, hr, -⟩ := Tree.exists_rangeOf hsize hn
    exact ⟨r, hlocator ▸ hr⟩
  · intro root requirements? types? constants? hkind hrequirements htypes hconstants
    rw [Domain.read_eq hs, hread Domain (Domain.ofBody root) "domain" hkind]
    simp only [Domain.ofBody,
      Forest.wordsOf_written hparts (begins_of_sameName hkind (by decide) _) hrequirements,
      Forest.textOf?_written hparts (begins_of_sameName hkind (by decide) _) htypes hfits _
        fun _ _ => Hierarchy.ofText_congr root,
      Forest.textOf?_written hparts (begins_of_sameName hkind (by decide) _) hconstants hfits _
        fun _ _ => Catalog.ofText_congr]
    rfl
  · intro domain? objects? hkind hdomain hobjects
    have hname : ((domain?.map ([·])).getD []).head? = domain? := by cases domain? <;> rfl
    rw [Problem.read_eq hs, hread Problem Problem.ofBody "problem" hkind]
    simp only [Problem.ofBody, hname,
      Forest.wordsOf_written hparts (begins_of_sameName hkind (by decide) _) hdomain,
      Forest.textOf?_written hparts (begins_of_sameName hkind (by decide) _) hobjects hfits _
        fun _ _ => Catalog.ofText_congr]
    rfl

/-- A comment in front, keywords in other cases, a section that is not read, and a comment among the
types. -/
theorem a_written_domain_is_read :
    let cs := ";)\r\n(DEFINE(Domain d)(:p(q ?x))(:Types a - ;b\n c))".toList
    let s : Source := ⟨"u", 1, .pddl, Tree.ofText cs, Locator.ofText cs⟩
    ∃ r, Domain.read "object" s = .ok (some
      { name? := some "d"
        nameRange? := some r
        requirements := []
        types := Hierarchy.ofText "object" "a - c".toList
        constants := Catalog.empty }) := by
  intro cs s
  have hheader := Laid.word "Domain" (by decide) <| .blank true ' ' rfl <|
    .word "d" (by decide) <| .done true
  have hinner := Laid.word "q" (by decide) <| .blank true ' ' rfl <|
    .word "?x" (by decide) <| .done true
  have hother := Laid.word ":p" (by decide) <| .group true hinner <| .done false
  have htypes := Laid.word ":Types" (by decide) <| .blank true ' ' rfl <|
    .word "a" (by decide) <| .blank true ' ' rfl <| .word "-" (by decide) <|
    .blank true ' ' rfl <| .comment ['b'] (by decide) <| .blank false ' ' rfl <|
    .word "c" (by decide) <| .done true
  have hbody := Laid.word "DEFINE" (by decide) <| .group true hheader <|
    .group false hother <| .group false htypes <| .done false
  have hlaid := Laid.comment [')', '\r'] (by decide) <| .group false hbody <| .done false
  let other : Script := word ":p" (group (words ["q", "?x"]) nil)
  obtain ⟨start, stop, -, hrange, hdomain, -⟩ := reading_undoes_writing cs s "DEFINE" "Domain" "d"
    [other, sectionOf ":Types" ["a", "-", "c"]] rfl (by decide) hlaid
  obtain ⟨r, hr⟩ := hrange rfl (by decide)
  have hread := hdomain "object" none (some ["a", "-", "c"]) none (by decide)
    (.absent (by decide)) (.present ":Types" _ [other] [] (by decide) (by decide))
    (.absent (by decide))
  rw [hr] at hread
  exact ⟨r, hread⟩

end Script

end Pddl
