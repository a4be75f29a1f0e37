/-
  Pddl.Proofs.Project.Dirtying — which submissions make a problem dirty.

  A new version of a known domain is meant to make the problems of the domain dirty, and the first
  version of a domain is meant to leave them alone. What is looked at is whether a file was known
  at the URI (`Replaces`), whatever it was recognized as:
  - `Leads.dirties`: a file is dirtied only by a domain that it refers to, in the place of a known
    file;
  - `dirties_iff_known_file_becomes_domain`: that is the exact condition, along every run;
  - `an_unknown_file_that_becomes_a_domain_dirties`: so a file that was stored while it was still
    empty, and is recognized as a domain for the first time, makes problems dirty.
-/

import Pddl.Proofs.Project.Invalidation

namespace Pddl.Project

/-- A step makes the file at a URI dirty: it is dirty afterwards, and was not before. -/
def Step.Dirties (t : Step) (uri : String) : Prop :=
  (∃ g, t.outcome.project.find? uri = some g ∧ g.status = .dirty) ∧
    ∀ f, t.before.find? uri = some f → f.status ≠ .dirty

/-- A submission puts a file in the place of a known one, of whatever kind. -/
structure Replaces (p : Project) (s : Submission) (parse : Bool) (old new : File) : Prop where
  known : p.find? s.uri = some old
  newer : old.version < s.version
  reply : (p.step (.submit s parse)).reply = .file new

section

variable {p : Project} {s : Submission} {parse : Bool}

theorem Replaces.project {old new : File} (h : p.Replaces s parse old new) :
    new.uri = s.uri ∧ (p.step (.submit s parse)).project = (p.store new).project :=
  (step_leads p (.submit s parse)).stored_of_newer (newer_of_known h.known h.newer) h.reply

/-- A file is stored with a status that is not dirty. -/
theorem fileOf_status_ne_dirty (s : Submission) (parse : Bool) (content : Content) :
    (fileOf s parse content).status ≠ .dirty := by
  simp only [fileOf]
  by_cases hu : content.isUnknown = true
  · simp [hu]
  · cases parse <;> simp [hu]

/-- A file that soiling makes dirty was parsed, and refers to the domain that changed. -/
theorem of_soilIf_dirty {domain? : Option String} {f : File} (hf : f.status ≠ .dirty)
    (h : (soilIf domain? f).status = .dirty) :
    f.status = .parsed ∧ ∃ name, domain? = some name ∧ f.refersTo name = true := by
  rw [soilIf_eq] at h
  by_cases hs : f.status = .parsed ∧ domain?.any f.refersTo = true
  · exact ⟨hs.1, (Option.any_eq_true _ _).mp hs.2⟩
  · rw [if_neg hs] at h
    exact absurd h hf

/-- The domain whose problems a new file makes dirty is the one that it declares itself, and a file
was known at its URI. -/
theorem of_changedDomain? {f : File} {name : String} (h : p.changedDomain? f = some name) :
    p.settings.dirtyDependents = true ∧ f.domainName? = some name ∧
      ∃ old, p.find? f.uri = some old := by
  unfold changedDomain? at h
  split at h
  · rename_i hc
    rw [Bool.and_eq_true] at hc
    have hsome : (p.find? f.uri).isSome = true := by
      unfold find?
      rw [find?_isSome]
      exact hc.2
    exact ⟨hc.1, h, Option.isSome_iff_exists.mp hsome⟩
  · cases h

/-- What makes a file dirty is a domain that it refers to, in the place of a known file. -/
theorem Leads.dirties {o : Outcome} {uri : String} {g : File} (h : p.Leads (.submit s parse) o)
    (hg : o.project.find? uri = some g) (hdirty : g.status = .dirty)
    (hbefore : ∀ f, p.find? uri = some f → f.status ≠ .dirty) :
    p.settings.dirtyDependents = true ∧ uri ≠ s.uri ∧
      ∃ old domain name problem, p.find? s.uri = some old ∧ old.version < s.version ∧
        o.reply = .file domain ∧ domain.domainName? = some name ∧
        p.find? uri = some problem ∧ problem.status = .parsed ∧ problem.refersTo name = true := by
  cases h with
  | stale => exact absurd hdirty (hbefore g hg)
  | @promoted _ known f _ hk _ _ hf =>
    have hput : (put f p.files).find? (·.uri == uri) = some g := hg
    rw [find?_put] at hput
    by_cases e : f.uri = uri
    · rw [if_pos e] at hput
      rw [← Option.some.inj hput, hf] at hdirty
      cases hdirty
    · rw [if_neg e] at hput
      exact absurd hdirty (hbefore g hput)
  | faulted => exact absurd hdirty (hbefore g hg)
  | @stored _ _ content f _ hn _ hf =>
    have huri : f.uri = s.uri := by
      rw [hf]
      rfl
    rw [find?_store, huri] at hg
    by_cases e : s.uri = uri
    · rw [if_pos e] at hg
      rw [← Option.some.inj hg, hf] at hdirty
      exact absurd hdirty (fileOf_status_ne_dirty s parse content)
    · rw [if_neg e] at hg
      obtain ⟨problem, hproblem, rfl⟩ := Option.map_eq_some_iff.mp hg
      obtain ⟨hparsed, name, hname, hrefers⟩ := of_soilIf_dirty (hbefore problem hproblem) hdirty
      obtain ⟨hset, hown, old, hold⟩ := of_changedDomain? hname
      rw [huri] at hold
      exact ⟨hset, fun e' => e e'.symm, old, f, name, problem, hold, hn old hold, rfl, hown,
        hproblem, hparsed, hrefers⟩
  | registered ha => cases ha

/-- A domain in the place of a known file makes the parsed problems dirty that refer to it. -/
theorem Replaces.dirties {old domain problem : File} {name uri : String}
    (h : p.Replaces s parse old domain) (hset : p.settings.dirtyDependents = true)
    (hne : uri ≠ s.uri) (hname : domain.domainName? = some name)
    (hproblem : p.find? uri = some problem) (hparsed : problem.status = .parsed)
    (hrefers : problem.refersTo name = true) : Step.Dirties ⟨p, .submit s parse⟩ uri := by
  obtain ⟨huri, hproject⟩ := h.project
  obtain ⟨hold, hou⟩ := mem_of_find? h.known
  have hchange : p.changedDomain? domain = some name := by
    rw [← hname]
    exact changedDomain?_eq hset ⟨old, hold, hou.trans huri.symm⟩
  constructor
  · refine ⟨soilIf (some name) problem, ?_, ?_⟩
    · change (p.step (.submit s parse)).project.find? uri = _
      rw [hproject, find?_store, huri, if_neg fun e => hne e.symm, hproblem, hchange]
      rfl
    · rw [soilIf_eq]
      exact if_pos ⟨hparsed, hrefers⟩
  · intro f hf e
    change p.find? uri = some f at hf
    rw [hproblem] at hf
    rw [← Option.some.inj hf, hparsed] at e
    cases e

end

/-- A submission makes the file at a URI dirty if and only if dirty dependents are kept track of,
the submission puts a domain in the place of a known file elsewhere, and the file is a parsed
problem that refers to this domain. What the known file had been recognized as makes no
difference. -/
theorem dirties_iff_known_file_becomes_domain (settings : Settings) (actions : List Action)
    (s : Submission) (parse : Bool) (uri : String) :
    let p := (empty settings).run actions
    Step.Dirties ⟨p, .submit s parse⟩ uri ↔
      settings.dirtyDependents = true ∧ uri ≠ s.uri ∧
        ∃ old domain name problem, p.Replaces s parse old domain ∧
          domain.domainName? = some name ∧ p.find? uri = some problem ∧
          problem.status = .parsed ∧ problem.refersTo name = true := by
  intro p
  have hset : p.settings = settings := settings_run _ _
  constructor
  · rintro ⟨⟨g, hg, hdirty⟩, hbefore⟩
    obtain ⟨hdirties, hne, old, domain, name, problem, hold, hv, hreply, hrest⟩ :=
      (step_leads p (.submit s parse)).dirties hg hdirty hbefore
    rw [hset] at hdirties
    exact ⟨hdirties, hne, old, domain, name, problem, ⟨hold, hv, hreply⟩, hrest⟩
  · rintro ⟨hdirties, hne, old, domain, name, problem, hreplaces, hname, hproblem, hparsed, hrefers⟩
    rw [← hset] at hdirties
    exact hreplaces.dirties hdirties hne hname hproblem hparsed hrefers

def beforeRecognition : List Action :=
  [.submit ⟨"file:///w/p.pddl", .pddl, 1, "(define (problem p) (:domain a))".toList, none⟩ true,
   .submit ⟨"file:///w/d.pddl", .pddl, 1, [], none⟩ false]

def firstDomain : Submission := ⟨"file:///w/d.pddl", .pddl, 2, "(define (domain a))".toList, none⟩

/-- The first version that is recognized as a domain makes the problem dirty, although what it
replaces was no domain. -/
theorem an_unknown_file_that_becomes_a_domain_dirties :
    let p := (empty {}).run beforeRecognition
    ∃ old domain, p.Replaces firstDomain false old domain ∧ old.content.isUnknown = true ∧
      old.isDomain = false ∧ domain.isDomain = true ∧
      Step.Dirties ⟨p, .submit firstDomain false⟩ "file:///w/p.pddl" := by
  intro p
  have hold : (p.find? firstDomain.uri).any (fun f =>
      f.version == 1 && f.content.isUnknown && !f.isDomain) = true := by decide +kernel
  have hbefore : (p.find? "file:///w/p.pddl").all (·.status == .parsed) = true := by
    decide +kernel
  have hafter : ((p.step (.submit firstDomain false)).project.find? "file:///w/p.pddl").any
      (·.status == .dirty) = true := by decide +kernel
  have hreply : (match (p.step (.submit firstDomain false)).reply with
      | .file f => f.isDomain
      | _ => false) = true := by decide +kernel
  obtain ⟨old, hfind, htest⟩ := (Option.any_eq_true _ _).mp hold
  simp only [Bool.and_eq_true, beq_iff_eq, Bool.not_eq_true'] at htest
  obtain ⟨g, hg, hdirty⟩ := (Option.any_eq_true _ _).mp hafter
  split at hreply
  · rename_i domain hdomain
    refine ⟨old, domain, ⟨hfind, ?_, hdomain⟩, htest.1.2, htest.2, hreply,
      ⟨g, hg, beq_iff_eq.mp hdirty⟩, ?_⟩
    · rw [htest.1.1]
      decide
    · intro f hf e
      change p.find? "file:///w/p.pddl" = some f at hf
      rw [hf, Option.all_some, e] at hbefore
      cases hbefore
  · cases hreply

end Pddl.Project
