/-
  Pddl.Proofs.Reading.Uncommented — comments do not matter to readers.

  The forest of a text without its comments is the forest of the text, stripped. Stripping keeps
  the tokens of a bracket and what its brackets hold, stripped, so a section is found in the one
  if and only if it is found in the other, and its tokens are the same. The text behind a keyword
  is written without comments from the start.
  - `section?_strip`, `wordsOf_strip`, `textOf?_strip`: what is read of sections;
  - `readAs_uncommented`: what is read of both texts is built of the same name and the same body;
  - `comments_are_not_read`: so a domain or a problem is recognized in both or in none, and is the
    same up to the range of its name.
-/

import Pddl.Proofs.Position.Ranges
import Pddl.Proofs.Syntax.Comments

namespace Pddl

/-! ## Stripped forests -/

namespace Forest

theorem tokens_consBlank (text : List Char) (f : Forest) :
    (consBlank text f).tokens = f.tokens := by
  unfold consBlank
  split <;> rfl

theorem insides_consBlank (text : List Char) (f : Forest) :
    (consBlank text f).insides = f.insides := by
  unfold consBlank
  split <;> rfl

theorem behindToken?_consBlank (text : List Char) (f : Forest) :
    (consBlank text f).behindToken? = f.behindToken? := by
  unfold consBlank
  split <;> rfl

theorem tokens_strip (f : Forest) : f.strip.tokens = f.tokens := by
  induction f with
  | nil => rfl
  | leaf kind text rest ih =>
    cases kind with
    | comment => exact ih
    | blank => exact (tokens_consBlank text rest.strip).trans ih
    | token => exact congrArg (text :: ·) ih
  | bracket closed inner rest _ ih => exact ih

theorem insides_strip (f : Forest) : f.strip.insides = f.insides.map strip := by
  induction f with
  | nil => rfl
  | leaf kind text rest ih =>
    cases kind with
    | comment | token => exact ih
    | blank => exact (insides_consBlank text rest.strip).trans ih
  | bracket closed inner rest _ ih => exact congrArg (inner.strip :: ·) ih

theorem behindToken?_strip (f : Forest) : f.strip.behindToken? = f.behindToken?.map strip := by
  induction f with
  | nil => rfl
  | leaf kind text rest ih =>
    cases kind with
    | comment => exact ih
    | blank => exact (behindToken?_consBlank text rest.strip).trans ih
    | token => rfl
  | bracket closed inner rest _ ih => exact ih

theorem behindKeyword_strip (f : Forest) : f.strip.behindKeyword = f.behindKeyword.strip := by
  rw [behindKeyword, behindKeyword, behindToken?_strip]
  cases f.behindToken? <;> rfl

theorem uncommented_strip (f : Forest) : f.strip.uncommented = f.uncommented := by
  rw [f.commentFree_strip.uncommented, text_strip]

theorem section?_strip (keyword : String) (f : Forest) :
    f.strip.section? keyword = (f.section? keyword).map strip := by
  have hbegins : begins keyword ∘ strip = begins keyword := by
    funext g
    rw [Function.comp_apply, begins, begins, tokens_strip]
  rw [section?, section?, insides_strip, List.find?_map, hbegins]

theorem wordsOf_strip (keyword : String) (f : Forest) :
    f.strip.wordsOf keyword = f.wordsOf keyword := by
  rw [wordsOf, wordsOf, section?_strip]
  cases f.section? keyword with
  | none => rfl
  | some s => simp only [Option.map_some, tokens_strip]

theorem textOf?_strip (keyword : String) (f : Forest) :
    f.strip.textOf? keyword = f.textOf? keyword := by
  rw [textOf?, textOf?, section?_strip, Option.map_map]
  congr 1
  funext s
  rw [Function.comp_apply, behindKeyword_strip, uncommented_strip]

theorem definition?_strip (keyword : String) (f : Forest) :
    f.strip.definition? keyword = (f.definition? keyword).map fun d => (d.1.strip, d.2) := by
  rw [definition?, definition?, section?_strip]
  cases f.section? "define" with
  | none => rfl
  | some body =>
    simp only [Option.map_some, Option.bind_some, section?_strip, Option.map_map]
    congr 1
    funext header
    simp only [Function.comp_apply, tokens_strip]

end Forest

theorem Domain.ofBody_strip (root : String) (name? : Option String) (range? : Option Range)
    (body : Forest) : ofBody root name? range? body.strip = ofBody root name? range? body := by
  simp only [ofBody, Forest.wordsOf_strip, Forest.textOf?_strip]

theorem Problem.ofBody_strip (name? : Option String) (range? : Option Range) (body : Forest) :
    ofBody name? range? body.strip = ofBody name? range? body := by
  simp only [ofBody, Forest.wordsOf_strip, Forest.textOf?_strip]

/-! ## Reading both -/

def Source.Located (s : Source) : Prop := ∀ n ∈ s.tree.nodes, ∃ r, Tree.rangeOf s.locator n = .ok r

/-- A text that is not too long locates its own nodes. -/
theorem Source.located_ofText {s : Source} {cs : List Char}
    (hsize : Text.byteLength cs < UInt32.size) (htree : s.tree = Tree.ofText cs)
    (hlocator : s.locator = Locator.ofText cs) : s.Located := by
  intro n hn
  rw [htree] at hn
  obtain ⟨r, hr, -⟩ := Tree.exists_rangeOf hsize hn
  exact ⟨r, by rw [hlocator, hr]⟩

namespace Definition

variable {α : Type} {build : Option String → Option Range → Forest → α} {keyword : String}
  {s s' : Source}

theorem readAs_eq_none_iff : readAs build keyword s = .ok none ↔ find? s.tree keyword = none := by
  unfold readAs
  cases find? s.tree keyword with
  | none => exact iff_of_true rfl rfl
  | some d =>
    refine iff_of_false ?_ nofun
    cases hrange : d.nameRange? s.locator <;> simp [hrange, Except.map]

theorem exists_of_readAs {a : α} (h : readAs build keyword s = .ok (some a)) :
    ∃ d range?, find? s.tree keyword = some d ∧ a = build d.nameText? range? d.body.inner := by
  unfold readAs at h
  cases hfind : find? s.tree keyword with
  | none => simp [hfind] at h
  | some d =>
    cases hrange : d.nameRange? s.locator with
    | error e => simp [hfind, hrange, Except.map] at h
    | ok range? =>
      simp only [hfind, hrange, Except.map, Except.ok.injEq, Option.some.injEq] at h
      exact ⟨d, range?, rfl, h.symm⟩

/-- Where every node has a range, reading gives an answer. -/
theorem exists_readAs (build : Option String → Option Range → Forest → α) (keyword : String)
    (hs : s.Located) : ∃ answer?, readAs build keyword s = .ok answer? := by
  unfold readAs
  cases hfind : find? s.tree keyword with
  | none => exact ⟨none, rfl⟩
  | some d =>
    have hrange : ∃ range?, d.nameRange? s.locator = .ok range? := by
      unfold nameRange?
      cases hname : d.name? with
      | none => exact ⟨none, rfl⟩
      | some n =>
        obtain ⟨r, hr⟩ := hs n (name_mem hfind hname)
        exact ⟨some r, by simp only [hr]; rfl⟩
    obtain ⟨range?, hrange⟩ := hrange
    exact ⟨_, by simp only [hrange]; rfl⟩

section

variable {cs : List Char} (hs : s.tree = Tree.ofText cs)
  (hs' : s'.tree = Tree.ofText (Tree.ofText cs).root.uncommented)

include hs hs'

/-- The definition in a text without its comments is the one in the text, stripped. -/
theorem definition?_uncommented (keyword : String) :
    (find? s'.tree keyword).map (fun d => (d.body.inner, d.nameText?)) =
      (find? s.tree keyword).map fun d => (d.body.inner.strip, d.nameText?) := by
  have hforest : s'.tree.forest = s.tree.forest.strip := by
    rw [hs, hs']
    exact Forest.ofText_uncommented (Forest.openLast_ofLexemes _) (Forest.fits_ofText cs)
  rw [find?_eq, hforest, Forest.definition?_strip, ← find?_eq, Option.map_map]
  rfl

/-- What is read of a text with and without its comments is built of one name and one body. -/
theorem readAs_uncommented (keyword : String)
    (hbuild : ∀ name? range? body, build name? range? body.strip = build name? range? body) :
    (readAs build keyword s = .ok none ↔ readAs build keyword s' = .ok none) ∧
    ∀ a a', readAs build keyword s = .ok (some a) → readAs build keyword s' = .ok (some a') →
      ∃ name? range? range?' body, a = build name? range? body ∧ a' = build name? range?' body := by
  have hfind := definition?_uncommented hs hs' keyword
  refine ⟨?_, ?_⟩
  · have hnone := congrArg Option.isNone hfind
    rw [Option.isNone_map, Option.isNone_map] at hnone
    rw [readAs_eq_none_iff, readAs_eq_none_iff, ← Option.isNone_iff_eq_none,
      ← Option.isNone_iff_eq_none, hnone]
  · intro a a' ha ha'
    obtain ⟨d, range?, hd, rfl⟩ := exists_of_readAs ha
    obtain ⟨d', range?', hd', rfl⟩ := exists_of_readAs ha'
    simp only [hd, hd', Option.map_some, Option.some.injEq, Prod.mk.injEq] at hfind
    refine ⟨d.nameText?, range?, range?', d.body.inner, rfl, ?_⟩
    rw [hfind.1, hfind.2, hbuild]

/-- Where every node of both texts has a range, both are recognized or none is. -/
theorem recognized_uncommented (keyword : String)
    (hbuild : ∀ name? range? body, build name? range? body.strip = build name? range? body)
    (hlocated : s.Located) (hlocated' : s'.Located) :
    (∃ a, readAs build keyword s = .ok (some a)) ↔
      ∃ a, readAs build keyword s' = .ok (some a) := by
  have hdeclined := (readAs_uncommented hs hs' keyword hbuild).1
  obtain ⟨answer?, hread⟩ := exists_readAs build keyword hlocated
  obtain ⟨answer?', hread'⟩ := exists_readAs build keyword hlocated'
  rw [hread, hread'] at hdeclined ⊢
  cases answer? <;> cases answer?' <;> simp_all

end

end Definition

namespace Source

/-- Comments are not read. A text and the text without its comments are both declined as a domain
or none is, whatever the locators do; where every node has a range, as in a text of less than 2³²
bytes with its own locator, both are recognized or none is. The domains read of both have the same
name, requirements, types and constants. The same is true of problems, with their names, the names
of their domains and their objects. -/
theorem comments_are_not_read (cs : List Char) (s s' : Source) (hs : s.tree = Tree.ofText cs)
    (hs' : s'.tree = Tree.ofText (Tree.ofText cs).root.uncommented) (root : String) :
    ((Domain.read root s = .ok none ↔ Domain.read root s' = .ok none) ∧
      (s.Located → s'.Located → ((∃ d, Domain.read root s = .ok (some d)) ↔
        ∃ d', Domain.read root s' = .ok (some d'))) ∧
      ∀ d d', Domain.read root s = .ok (some d) → Domain.read root s' = .ok (some d') →
        d.name? = d'.name? ∧ d.requirements = d'.requirements ∧ d.types = d'.types ∧
          d.constants = d'.constants) ∧
    (Problem.read s = .ok none ↔ Problem.read s' = .ok none) ∧
      (s.Located → s'.Located → ((∃ p, Problem.read s = .ok (some p)) ↔
        ∃ p', Problem.read s' = .ok (some p'))) ∧
      ∀ p p', Problem.read s = .ok (some p) → Problem.read s' = .ok (some p') →
        p.name? = p'.name? ∧ p.domain? = p'.domain? ∧ p.objects = p'.objects := by
  have hdomain := Domain.ofBody_strip root
  have hproblem := Problem.ofBody_strip
  rw [Domain.read_eq hs, Domain.read_eq hs', Problem.read_eq hs, Problem.read_eq hs']
  refine ⟨⟨(Definition.readAs_uncommented hs hs' "domain" hdomain).1,
    Definition.recognized_uncommented hs hs' "domain" hdomain, ?_⟩,
    (Definition.readAs_uncommented hs hs' "problem" hproblem).1,
    Definition.recognized_uncommented hs hs' "problem" hproblem, ?_⟩
  · intro d d' hd hd'
    obtain ⟨name?, range?, range?', body, rfl, rfl⟩ :=
      (Definition.readAs_uncommented hs hs' "domain" hdomain).2 d d' hd hd'
    exact ⟨rfl, rfl, rfl, rfl⟩
  · intro p p' hp hp'
    obtain ⟨name?, range?, range?', body, rfl, rfl⟩ :=
      (Definition.readAs_uncommented hs hs' "problem" hproblem).2 p p' hp hp'
    exact ⟨rfl, rfl, rfl⟩

/-- Comments in front of a keyword, in the name's place, and at the end of a section left open. -/
theorem comments_around_a_name_are_not_read :
    let cs := "(;c\ndefine (domain ;n\n d) (:types a - ;)\n b ;".toList
    let bare := (Tree.ofText cs).root.uncommented
    let s : Source := ⟨"u", 1, .pddl, Tree.ofText cs, Locator.ofText cs⟩
    let s' : Source := ⟨"u", 1, .pddl, Tree.ofText bare, Locator.ofText bare⟩
    ∃ d d', Domain.read "object" s = .ok (some d) ∧ Domain.read "object" s' = .ok (some d') ∧
      d.name? = some "d" ∧ d'.name? = d.name? ∧ d'.types = d.types ∧
      d.types.vertices = ["a", "b", "object"] := by
  intro cs bare s s'
  obtain ⟨⟨-, hrecognized, hsame⟩, -⟩ := comments_are_not_read cs s s' rfl rfl "object"
  have hread : (Domain.read "object" s).toOption.join.map (fun d => (d.name?, d.types.vertices)) =
      some (some "d", ["a", "b", "object"]) := by
    decide +kernel
  obtain ⟨d, hjoin, hd⟩ := Option.map_eq_some_iff.mp hread
  obtain ⟨hname, hvertices⟩ := Prod.mk.inj hd
  have hok : Domain.read "object" s = .ok (some d) := by
    cases h : Domain.read "object" s <;> simp_all [Except.toOption]
  have hlocated : s.Located := located_ofText (by decide +kernel) rfl rfl
  have hlocated' : s'.Located := located_ofText (by decide +kernel) rfl rfl
  obtain ⟨d', hok'⟩ := (hrecognized hlocated hlocated').mp ⟨d, hok⟩
  obtain ⟨hname', -, htypes', -⟩ := hsame d d' hok hok'
  exact ⟨d, d', hok, hok', hname, hname'.symm, htypes'.symm, hvertices⟩

end Source

end Pddl
