/-
  Pddl.Proofs.Project.Resolution — which file a problem or a plan is resolved to.

  Files are looked for by name among all that are stored, in their order. Which of them are
  candidates is said without the look-up: a domain that a problem refers to (`IsDomainOf`), or a
  problem that a plan names (`IsProblemOf`). The choice is said by the order of the files alone
  (`Picked`): the first candidate in the folder of the file that is resolved, and the first of all
  if no candidate is there.
  - `closest?_filter`: choosing among the files with a property is looking twice through all files;
  - `closest?_eq_some_iff`, `closest?_eq_none_iff`: so what is chosen is what is picked, and
    nothing is chosen only if there is no candidate;
  - `the_closest_candidate_is_picked`: both look-ups choose in this way.
-/

import Pddl.Proofs.Project.Relations

namespace Pddl.Project

variable {p : Project} {files : List File} {f c : File}

def FirstWith (property : File → Prop) (files : List File) (c : File) : Prop :=
  ∃ before after, files = before ++ c :: after ∧ property c ∧ ∀ g ∈ before, ¬ property g

/-- The choice that is made for `f` among the candidates of some files. -/
inductive Picked (f : File) (candidate : File → Prop) (files : List File) : File → Prop
  /-- The first candidate in the folder of `f`. -/
  | near {c : File} : FirstWith (fun g => candidate g ∧ g.folder = f.folder) files c →
      Picked f candidate files c
  /-- The first candidate, if none is in the folder of `f`. -/
  | far {c : File} : (∀ g ∈ files, candidate g → g.folder ≠ f.folder) →
      FirstWith candidate files c → Picked f candidate files c

def IsDomainOf (problem domain : File) : Prop :=
  ∃ q reference name, problem.content.problem? = some q ∧ q.domain? = some reference ∧
    domain.domainName? = some name ∧ Text.foldCase name = Text.foldCase reference

/-- A plan or happenings give the name of a problem, and the name that it refers to its domain by
if they give one, in any case. -/
def IsProblemOf (plan problem : File) : Prop :=
  ∃ s wanted q name, plan.content.schedule? = some s ∧ s.solved.problem? = some wanted ∧
    problem.content.problem? = some q ∧ q.name? = some name ∧
    Text.foldCase name = Text.foldCase wanted ∧
    ∀ domain, s.solved.domain? = some domain →
      ∃ reference, q.domain? = some reference ∧ Text.foldCase reference = Text.foldCase domain

/-! ## Choosing -/

theorem find?_eq_some_iff_firstWith {property : File → Bool} :
    files.find? property = some c ↔ FirstWith (property · = true) files c := by
  rw [List.find?_eq_some_iff_append]
  constructor
  · intro h
    obtain ⟨hc, before, after, hfiles, hbefore⟩ := h
    exact ⟨before, after, hfiles, hc, fun g hg => by simpa using hbefore g hg⟩
  · intro h
    obtain ⟨before, after, hfiles, hc, hbefore⟩ := h
    exact ⟨hc, before, after, hfiles, fun g hg => by simpa using hbefore g hg⟩

/-- Choosing among the files with a property is looking for one of them in the folder, and then for
any of them. -/
theorem closest?_filter (f : File) (property : File → Bool) (files : List File) :
    closest? f (files.filter property) =
      (files.find? fun c => property c && c.folder == f.folder).or (files.find? property) := by
  unfold closest?
  rw [List.find?_filter, List.head?_filter]
  have hsame : (fun c => decide (property c = true ∧ (c.folder == f.folder) = true)) =
      fun c => property c && c.folder == f.folder := by
    funext c
    rw [Bool.decide_and, Bool.decide_coe, Bool.decide_coe]
  rw [hsame]
  cases files.find? fun c => property c && c.folder == f.folder with
  | none => rfl
  | some c => rfl

theorem closest?_eq_some_iff {property : File → Bool} :
    closest? f (files.filter property) = some c ↔ Picked f (property · = true) files c := by
  have hnear : (fun g => (property g && g.folder == f.folder) = true) =
      fun g => property g = true ∧ g.folder = f.folder := by
    funext g
    simp
  rw [closest?_filter, Option.or_eq_some_iff, find?_eq_some_iff_firstWith,
    find?_eq_some_iff_firstWith, hnear, List.find?_eq_none]
  constructor
  · intro h
    rcases h with h | ⟨hnone, h⟩
    · exact .near h
    · refine .far ?_ h
      intro g hg hproperty hfolder
      exact hnone g hg (by simp [hproperty, hfolder])
  · intro h
    cases h with
    | near h => exact .inl h
    | far hnone h =>
      refine .inr ⟨?_, h⟩
      intro g hg hboth
      simp only [Bool.and_eq_true, beq_iff_eq] at hboth
      exact hnone g hg hboth.1 hboth.2

theorem closest?_eq_none_iff {property : File → Bool} :
    closest? f (files.filter property) = none ↔ ∀ c ∈ files, ¬ property c = true := by
  rw [closest?_filter, Option.or_eq_none_iff, List.find?_eq_none, List.find?_eq_none]
  constructor
  · intro h
    exact h.2
  · intro h
    refine ⟨?_, h⟩
    intro c hc hboth
    simp only [Bool.and_eq_true] at hboth
    exact h c hc hboth.1

/-! ## Candidates -/

theorem domainCandidates_eq (p : Project) (f : File) :
    p.domainCandidates f =
      p.files.filter fun d => (f.content.problem?.bind (·.domain?)).any d.isDomainNamed := by
  unfold domainCandidates
  cases f.content.problem?.bind (·.domain?) with
  | none => simp
  | some name => rfl

theorem any_isDomainNamed_iff {d : File} :
    (f.content.problem?.bind (·.domain?)).any d.isDomainNamed = true ↔ IsDomainOf f d := by
  rw [Option.any_eq_true]
  constructor
  · intro h
    obtain ⟨reference, href, hnamed⟩ := h
    obtain ⟨q, hq, href⟩ := Option.bind_eq_some_iff.mp href
    obtain ⟨name, hname, hfold⟩ := isDomainNamed_iff.mp hnamed
    exact ⟨q, reference, name, hq, href, hname, hfold⟩
  · intro h
    obtain ⟨q, reference, name, hq, href, hname, hfold⟩ := h
    exact ⟨reference, Option.bind_eq_some_iff.mpr ⟨q, hq, href⟩,
      isDomainNamed_iff.mpr ⟨name, hname, hfold⟩⟩

theorem problemCandidates_eq (p : Project) (f : File) :
    p.problemCandidates f =
      p.files.filter fun g => f.content.schedule?.any fun s => s.solved.problem?.any fun name =>
        g.content.problem?.any (answersTo name s.solved.domain?) := by
  unfold problemCandidates
  cases f.content.schedule? with
  | none => simp
  | some s =>
    simp only [Option.any_some]
    cases s.solved.problem? with
    | none => simp
    | some name => rfl

theorem answersTo_iff {name : String} {domain? : Option String} {q : Problem} :
    answersTo name domain? q = true ↔
      (∃ own, q.name? = some own ∧ Text.foldCase own = Text.foldCase name) ∧
      ∀ domain, domain? = some domain →
        ∃ reference, q.domain? = some reference ∧
          Text.foldCase reference = Text.foldCase domain := by
  simp only [answersTo, Bool.and_eq_true, Problem.hasName, Problem.refersTo, Option.any_eq_true,
    Option.all_eq_true, Text.sameName_iff]

theorem any_answersTo_iff {g : File} :
    (f.content.schedule?.any fun s => s.solved.problem?.any fun name =>
      g.content.problem?.any (answersTo name s.solved.domain?)) = true ↔ IsProblemOf f g := by
  constructor
  · intro h
    obtain ⟨s, hs, h⟩ := (Option.any_eq_true _ _).mp h
    obtain ⟨wanted, hwanted, h⟩ := (Option.any_eq_true _ _).mp h
    obtain ⟨q, hq, h⟩ := (Option.any_eq_true _ _).mp h
    obtain ⟨⟨name, hname, hfold⟩, hdomain⟩ := answersTo_iff.mp h
    exact ⟨s, wanted, q, name, hs, hwanted, hq, hname, hfold, hdomain⟩
  · intro h
    obtain ⟨s, wanted, q, name, hs, hwanted, hq, hname, hfold, hdomain⟩ := h
    rw [hs, Option.any_some, hwanted, Option.any_some, hq, Option.any_some]
    exact answersTo_iff.mpr ⟨⟨name, hname, hfold⟩, hdomain⟩

/-! ## Both look-ups -/

/-- In every project, for every file:
- a problem is resolved to no domain only if no stored domain has the name that it refers to, or if
  it refers to none, as a file does that is no problem;
- it is resolved to a domain only if that is the first with the name in the folder of the problem,
  or the first with the name if there is none in the folder;
- a plan or happenings are resolved in the same way to one of the stored problems with the name
  that they give, and that refer to the domain that they name if they name one; a file of another
  kind, or without the name of a problem, is resolved to none. -/
theorem the_closest_candidate_is_picked (p : Project) (f : File) :
    (p.domainFor? f = none ↔ ∀ d ∈ p.files, ¬ IsDomainOf f d) ∧
    (∀ d, p.domainFor? f = some d ↔ Picked f (IsDomainOf f) p.files d) ∧
    (p.problemFor? f = none ↔ ∀ q ∈ p.files, ¬ IsProblemOf f q) ∧
    (∀ q, p.problemFor? f = some q ↔ Picked f (IsProblemOf f) p.files q) ∧
    (f.content.schedule?.bind (·.solved.problem?) = none → p.problemFor? f = none) := by
  have hnone : p.problemFor? f = none ↔ ∀ q ∈ p.files, ¬ IsProblemOf f q := by
    unfold problemFor?
    rw [problemCandidates_eq, closest?_eq_none_iff]
    simp only [any_answersTo_iff]
  refine ⟨?_, ?_, hnone, ?_, ?_⟩
  · unfold domainFor?
    rw [domainCandidates_eq, closest?_eq_none_iff]
    simp only [any_isDomainNamed_iff]
  · intro d
    unfold domainFor?
    rw [domainCandidates_eq, closest?_eq_some_iff]
    simp only [any_isDomainNamed_iff]
  · intro q
    unfold problemFor?
    rw [problemCandidates_eq, closest?_eq_some_iff]
    simp only [any_answersTo_iff]
  · intro h
    rw [hnone]
    intro q _ hproblem
    obtain ⟨s, wanted, -, -, hs, hwanted, -⟩ := hproblem
    rw [hs, Option.bind_some, hwanted] at h
    cases h

/-- Two domains with one name, and a problem and a plan in the folder of the second, all of them
under URIs and in spellings of their own. -/
def foldersRun : List Action :=
  [.submit ⟨"file:///other/d.pddl", .pddl, 1, "(define (domain blocks))".toList, none⟩ false,
   .submit ⟨"file:///w/d.pddl", .pddl, 1, "(define (domain Blocks))".toList, none⟩ false,
   .submit ⟨"git:/w/p.pddl?ref", .pddl, 1, "(define (problem P) (:domain BLOCKS))".toList, none⟩
     true,
   .submit ⟨"w://tool/w/p.plan", .plan, 1, ";;!domain: blocks\n;;!problem: p\n(a)".toList, none⟩
     false]

theorem resolved_foldersRun :
    ∃ plan ∈ ((empty {}).run foldersRun).files, ∃ problem domain,
      ((empty {}).run foldersRun).problemFor? plan = some problem ∧
      ((empty {}).run foldersRun).domainFor? problem = some domain ∧
      domain.uri = "file:///w/d.pddl" ∧
      domain.content.schedule?.bind (·.solved.problem?) = none := by
  obtain ⟨plan, hplan, htest⟩ : ∃ plan ∈ ((empty {}).run foldersRun).files,
      (((empty {}).run foldersRun).problemFor? plan).any (fun problem =>
        (((empty {}).run foldersRun).domainFor? problem).any fun domain =>
          domain.uri == "file:///w/d.pddl" &&
            (domain.content.schedule?.bind (·.solved.problem?)).isNone) = true := by
    decide +kernel
  obtain ⟨problem, hproblem, htest⟩ := (Option.any_eq_true _ _).mp htest
  obtain ⟨domain, hdomain, htest⟩ := (Option.any_eq_true _ _).mp htest
  simp only [Bool.and_eq_true, beq_iff_eq, Option.isNone_iff_eq_none] at htest
  exact ⟨plan, hplan, problem, domain, hproblem, hdomain, htest.1, htest.2⟩

/-- There the second domain is picked, as it is in the folder of the problem, and the problem for
the plan; the domain itself is resolved to nothing. -/
theorem the_domain_in_the_folder_is_picked :
    let p := (empty {}).run foldersRun
    ∃ problem ∈ p.files, ∃ domain ∈ p.files, ∃ plan ∈ p.files,
      p.domainFor? problem = some domain ∧ domain.uri = "file:///w/d.pddl" ∧
      Picked problem (IsDomainOf problem) p.files domain ∧
      p.problemFor? plan = some problem ∧ Picked plan (IsProblemOf plan) p.files problem ∧
      p.problemFor? domain = none := by
  intro p
  obtain ⟨plan, hplan, problem, domain, hproblem, hdomain, huri, hnone⟩ := resolved_foldersRun
  refine ⟨problem, (problemFor?_spec hproblem).1, domain, (domainFor?_spec hdomain).1, plan, hplan,
    hdomain, huri, ?_, hproblem, ?_, ?_⟩
  · exact ((the_closest_candidate_is_picked p problem).2.1 domain).mp hdomain
  · exact ((the_closest_candidate_is_picked p plan).2.2.2.1 problem).mp hproblem
  · exact (the_closest_candidate_is_picked p domain).2.2.2.2 hnone

end Pddl.Project
