/-
  Pddl.Proofs.Project.Invalidation — whether a new version of a domain reaches its problems.

  A problem is resolved to a domain by name (`domainFor?`), and a new version of that domain finds
  its problems by the name that it declares itself. The two agree only while the name stays:
  - `domainFor?_spec`: the domain that a problem is resolved to is stored, and has the name that
    the problem refers to;
  - `outdated_iff_name_kept`: a parsed problem stops being parsed if and only if the new version
    of its domain is a domain with the old name;
  - `a_renamed_domain_leaves_its_problem_parsed`: a version under another name passes the problem
    by, although the file it was resolved to has changed.
-/

import Pddl.Project.Relation
import Pddl.Proofs.Project.Step

namespace Pddl.Project

theorem closest?_mem {f c : File} {candidates : List File}
    (h : closest? f candidates = some c) : c ∈ candidates := by
  unfold closest? at h
  split at h
  · rename_i d hd
    cases h
    exact List.mem_of_find?_eq_some hd
  · exact List.mem_of_mem_head? h

theorem domainFor?_spec {p : Project} {problem domain : File}
    (h : p.domainFor? problem = some domain) :
    domain ∈ p.files ∧ ∃ name, problem.content.problem?.bind (·.domain?) = some name ∧
      domain.isDomainNamed name = true := by
  have hmem := closest?_mem h
  unfold domainCandidates at hmem
  split at hmem
  · rename_i name hname
    obtain ⟨hd, hn⟩ := List.mem_filter.mp hmem
    exact ⟨hd, name, hname, hn⟩
  · cases hmem

/-- A file refers to a domain if the name in its reference is the same in any case. -/
theorem refersTo_iff {f : File} {name : String}
    (h : f.content.problem?.bind (·.domain?) = some name) (domain : String) :
    f.refersTo domain = Text.sameName name domain := by
  obtain ⟨q, hq, hn⟩ := Option.bind_eq_some_iff.mp h
  simp [File.refersTo, Problem.refersTo, hq, hn]

/-- The problem and its domain go by the same names. -/
theorem refersTo_eq_isDomainNamed {p : Project} {problem domain : File}
    (h : p.domainFor? problem = some domain) (name : String) :
    problem.refersTo name = domain.isDomainNamed name := by
  obtain ⟨-, ref, href, hnamed⟩ := domainFor?_spec h
  rw [refersTo_iff href]
  unfold File.isDomainNamed at hnamed ⊢
  cases hd : domain.content.domain? with
  | none => simp [hd] at hnamed
  | some d =>
    simp only [hd, Option.any_some, Domain.hasName] at hnamed ⊢
    cases hown : d.name? with
    | none => simp [hown] at hnamed
    | some own =>
      simp only [hown, Option.any_some, Text.sameName, beq_iff_eq] at hnamed ⊢
      rw [hnamed]

/-- A domain is no problem, so that a problem and its domain have different URIs. -/
theorem uri_ne_of_domainFor? {p : Project} {problem domain : File} (hd : Distinct p.files)
    (hp : problem ∈ p.files) (h : p.domainFor? problem = some domain) :
    domain.uri ≠ problem.uri := by
  intro e
  obtain ⟨hmem, name, hname, hnamed⟩ := domainFor?_spec h
  obtain rfl : domain = problem := List.inj_on_of_nodup_map hd hmem hp e
  unfold File.isDomainNamed at hnamed
  cases hc : domain.content <;> simp_all [Content.domain?, Content.problem?]

/-- A newer version that is answered with a file was stored. -/
theorem Leads.stored_of_newer {p : Project} {s : Submission} {parse : Bool} {o : Outcome}
    {f : File} (h : p.Leads (.submit s parse) o) (hn : p.Newer s) (hr : o.reply = .file f) :
    f.uri = s.uri ∧ o.project = (p.store f).project := by
  cases h with
  | stale hk hv => exact absurd hn (not_newer hk hv)
  | promoted hk hv => exact absurd hn (not_newer hk (Int.le_of_eq hv))
  | faulted => cases hr
  | stored _ _ hf =>
    cases hr
    exact ⟨by rw [hf]; rfl, rfl⟩
  | registered ha => cases ha

/-- A file in the place of a known one soils by the name that it declares. -/
theorem changedDomain?_eq {p : Project} {f : File} (hset : p.settings.dirtyDependents = true)
    (hk : ∃ g ∈ p.files, g.uri = f.uri) : p.changedDomain? f = f.domainName? := by
  have hhas : p.has f.uri = true := any_uri.mpr hk
  simp [changedDomain?, hset, hhas]

/-- A new version of the domain of a parsed problem was accepted. Then the problem is no longer
parsed if and only if the new version is again a domain, under the name that it had before in any
case; nothing else of the problem changes. -/
theorem outdated_iff_name_kept (settings : Settings) (actions : List Action)
    (problem domain f : File) (s : Submission) (parse : Bool)
    (hset : settings.dirtyDependents = true)
    (hp : problem ∈ ((empty settings).run actions).files)
    (hparsed : problem.status = .parsed)
    (hfor : ((empty settings).run actions).domainFor? problem = some domain)
    (hu : s.uri = domain.uri) (hv : domain.version < s.version)
    (hreply : (((empty settings).run actions).step (.submit s parse)).reply = .file f) :
    ∃ g, (((empty settings).run actions).step (.submit s parse)).project.find? problem.uri =
        some g ∧
      g = { problem with status := g.status } ∧
      (g.status ≠ .parsed ↔ f.domainName?.any domain.isDomainNamed = true) := by
  have hd : Distinct ((empty settings).run actions).files :=
    distinct_run (distinct_empty settings) actions
  have hdirty : ((empty settings).run actions).settings.dirtyDependents = true := by
    rw [settings_run]
    exact hset
  obtain ⟨hdom, -⟩ := domainFor?_spec hfor
  have hnewer : ((empty settings).run actions).Newer s := by
    intro known hk
    rw [hu] at hk
    rw [Option.some.inj (hk.symm.trans (find?_of_mem hd hdom))]
    exact hv
  obtain ⟨hfu, hproject⟩ := (step_leads _ (.submit s parse)).stored_of_newer hnewer hreply
  have hchange : ((empty settings).run actions).changedDomain? f = f.domainName? :=
    changedDomain?_eq hdirty ⟨domain, hdom, by rw [hfu, hu]⟩
  have hne : f.uri ≠ problem.uri := by
    rw [hfu, hu]
    exact uri_ne_of_domainFor? hd hp hfor
  have hproblem : ((empty settings).run actions).find? problem.uri = some problem :=
    find?_of_mem hd hp
  have hnames : problem.refersTo = domain.isDomainNamed :=
    funext (refersTo_eq_isDomainNamed hfor)
  refine ⟨soilIf f.domainName? problem, ?_, ?_, ?_⟩
  · rw [hproject, find?_store, if_neg hne, hproblem, hchange]
    rfl
  · rw [soilIf_eq]
  · rw [soilIf_eq, hnames, hparsed]
    by_cases hk : f.domainName?.any domain.isDomainNamed = true
    · simp [hk]
    · simp [hk]

def beforeChange : List Action :=
  [.submit ⟨"file:///w/d.pddl", .pddl, 1, "(define (domain a))".toList, none⟩ false,
   .submit ⟨"file:///w/p.pddl", .pddl, 1, "(define (problem p) (:domain a))".toList, none⟩ true]

def nextDomain (text : String) : Submission := ⟨"file:///w/d.pddl", .pddl, 2, text.toList, none⟩

theorem resolved_beforeChange :
    ∃ problem ∈ ((empty {}).run beforeChange).files, problem.uri = "file:///w/p.pddl" ∧
      problem.status = .parsed ∧
      ∃ domain, ((empty {}).run beforeChange).domainFor? problem = some domain ∧
        domain.uri = "file:///w/d.pddl" ∧ domain.version = 1 ∧
        domain.isDomainNamed "A" = true := by
  obtain ⟨problem, hp, hu, hs, hfor⟩ : ∃ problem ∈ ((empty {}).run beforeChange).files,
      problem.uri = "file:///w/p.pddl" ∧ problem.status = .parsed ∧
      (((empty {}).run beforeChange).domainFor? problem).any (fun d =>
        d.uri == "file:///w/d.pddl" && d.version == 1 && d.isDomainNamed "A") = true := by
    decide +kernel
  obtain ⟨domain, hd, htest⟩ := (Option.any_eq_true _ _).mp hfor
  simp only [Bool.and_eq_true, beq_iff_eq] at htest
  exact ⟨problem, hp, hu, hs, domain, hd, htest.1.1, htest.1.2, htest.2⟩

/-- A new version under the same name, in another case, reaches the problem. -/
theorem a_kept_name_outdates_the_problem :
    let p := (empty {}).run beforeChange
    let o := p.step (.submit (nextDomain "(define (domain A) (:types t))") false)
    ∃ problem ∈ p.files, ∃ domain f g, problem.status = .parsed ∧
      p.domainFor? problem = some domain ∧ domain.uri = "file:///w/d.pddl" ∧ domain.version < 2 ∧
      o.reply = .file f ∧ f.domainName?.any domain.isDomainNamed = true ∧
      o.project.find? problem.uri = some g ∧ g.status ≠ .parsed := by
  intro p o
  obtain ⟨problem, hp, -, hs, domain, hfor, hu, hv, hnamed⟩ := resolved_beforeChange
  have hreply : (match o.reply with
      | .file f => f.domainName? == some "A"
      | _ => false) = true := by decide +kernel
  split at hreply
  · rename_i f hf
    have hname : f.domainName?.any domain.isDomainNamed = true := by
      rw [beq_iff_eq.mp hreply]
      exact hnamed
    obtain ⟨g, hg, -, hiff⟩ := outdated_iff_name_kept {} beforeChange problem domain f
      (nextDomain "(define (domain A) (:types t))") false rfl hp hs hfor hu.symm
      (by rw [hv]; decide) hf
    exact ⟨problem, hp, domain, f, g, hs, hfor, hu, by omega, hf, hname, hg, hiff.mpr hname⟩
  · cases hreply

/-- A new version under another name passes the problem by. -/
theorem a_renamed_domain_leaves_its_problem_parsed :
    let p := (empty {}).run beforeChange
    let o := p.step (.submit (nextDomain "(define (domain b))") false)
    ∃ problem ∈ p.files, ∃ domain f g, problem.status = .parsed ∧
      p.domainFor? problem = some domain ∧ domain.uri = "file:///w/d.pddl" ∧ domain.version < 2 ∧
      o.reply = .file f ∧ o.project.find? problem.uri = some g ∧ g.status = .parsed := by
  intro p o
  obtain ⟨problem, hp, hpu, hs, domain, hfor, hu, hv, -⟩ := resolved_beforeChange
  have hreply : (match o.reply with
      | .file _ => true
      | _ => false) = true := by decide +kernel
  have hafter : (o.project.find? "file:///w/p.pddl").any (·.status == .parsed) = true := by
    decide +kernel
  obtain ⟨g, hg, hparsed⟩ := (Option.any_eq_true _ _).mp hafter
  split at hreply
  · rename_i f hf
    exact ⟨problem, hp, domain, f, g, hs, hfor, hu, by omega, hf, hpu ▸ hg, beq_iff_eq.mp hparsed⟩
  · cases hreply

end Pddl.Project
