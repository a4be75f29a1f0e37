/-
  Pddl.Proofs.Project.Relations — the relations between files, held against each other.

  Files are matched by name in four places: a problem looks for its domain (`domainFor?`), a
  domain lists its problems (`problemsFor`), a plan looks for its problem (`problemFor?`), and a
  new version of a domain makes problems dirty (`store`). Each place compares names on its own.
  What a file declares or refers to is said here once, in folded case (`isDomainNamed_iff`,
  `refersTo_eq_true_iff`), each look-up gets a lemma that gives its members, and the four are
  compared through these:
  - `mem_problemsFor_of_domainFor?`: a domain that a problem is resolved to lists the problem;
  - `exists_domainFor?_of_mem`: a problem that a domain lists is resolved, to that domain or to
    another with its name;
  - `isDomainNamed_of_problemFor?`: the problem of a plan belongs to the domain that the plan
    names;
  - `store_events_eq`, `changedFiles_store`: a new version of a domain makes dirty exactly the
    problems that it lists and that were parsed, and tells them in the order of that list.
-/

import Pddl.Proofs.Project.Invalidation

namespace Pddl.Project

variable {p : Project} {f problem domain plan : File} {name : String}

/-! ## What files are called -/

/-- A file is the domain with a name if the name that it declares is the same in any case. -/
theorem isDomainNamed_iff : f.isDomainNamed name = true ↔
    ∃ own, f.domainName? = some own ∧ Text.foldCase own = Text.foldCase name := by
  unfold File.isDomainNamed File.domainName?
  cases f.content.domain? with
  | none => simp
  | some d =>
    simp only [Option.any_some, Domain.hasName, Option.any_eq_true, Text.sameName_iff]
    rfl

/-- A file refers to a domain if it is a problem with a reference to it in any case. -/
theorem refersTo_eq_true_iff : f.refersTo name = true ↔
    ∃ ref, f.content.problem?.bind (·.domain?) = some ref ∧
      Text.foldCase ref = Text.foldCase name := by
  unfold File.refersTo
  cases f.content.problem? with
  | none => simp
  | some q =>
    simp only [Option.any_some, Problem.refersTo, Option.any_eq_true, Text.sameName_iff]
    rfl

/-! ## What the look-ups find -/

/-- Among some candidates one is chosen. -/
theorem exists_closest? {c : File} {candidates : List File} (f : File) (h : c ∈ candidates) :
    ∃ d, closest? f candidates = some d := by
  unfold closest?
  split
  · rename_i d _
    exact ⟨d, rfl⟩
  · cases candidates with
    | nil => cases h
    | cons first rest => exact ⟨first, rfl⟩

theorem problemsFor_eq (p : Project) (domain : File) :
    p.problemsFor domain = p.files.filter fun f => domain.domainName?.any f.refersTo := by
  unfold problemsFor
  cases domain.domainName? with
  | none => simp
  | some name => rfl

theorem mem_problemsFor : problem ∈ p.problemsFor domain ↔
    problem ∈ p.files ∧ ∃ name, domain.domainName? = some name ∧ problem.refersTo name = true := by
  rw [problemsFor_eq, List.mem_filter, Option.any_eq_true]

theorem problemFor?_spec (h : p.problemFor? plan = some problem) :
    problem ∈ p.files ∧ ∀ x, plan.content.schedule?.bind (·.solved.domain?) = some x →
      problem.refersTo x = true := by
  have hmem := closest?_mem h
  unfold problemCandidates at hmem
  split at hmem
  · cases hmem
  rename_i s hs
  split at hmem
  · cases hmem
  rename_i name _
  obtain ⟨hp, hanswers⟩ := List.mem_filter.mp hmem
  obtain ⟨q, hq, hanswer⟩ := (Option.any_eq_true _ _).mp hanswers
  refine ⟨hp, ?_⟩
  intro x hx
  have hdomain : s.solved.domain? = some x := by simpa [hs] using hx
  simp only [answersTo, hdomain, Option.all_some, Bool.and_eq_true] at hanswer
  simp only [File.refersTo, hq, Option.any_some]
  exact hanswer.2

/-! ## The look-ups against each other -/

/-- A domain that a problem is resolved to lists the problem. -/
theorem mem_problemsFor_of_domainFor? (hp : problem ∈ p.files)
    (h : p.domainFor? problem = some domain) : problem ∈ p.problemsFor domain := by
  obtain ⟨-, ref, href, hnamed⟩ := domainFor?_spec h
  obtain ⟨own, hown, hfold⟩ := isDomainNamed_iff.mp hnamed
  apply mem_problemsFor.mpr
  exact ⟨hp, own, hown, refersTo_eq_true_iff.mpr ⟨ref, href, hfold.symm⟩⟩

/-- A problem that a stored domain lists is resolved, to a stored domain with the same name. -/
theorem exists_domainFor?_of_mem (hd : domain ∈ p.files) (h : problem ∈ p.problemsFor domain) :
    ∃ found name, p.domainFor? problem = some found ∧ found ∈ p.files ∧
      domain.domainName? = some name ∧ found.isDomainNamed name = true := by
  obtain ⟨-, name, hname, hrefers⟩ := mem_problemsFor.mp h
  obtain ⟨ref, href, hfold⟩ := refersTo_eq_true_iff.mp hrefers
  -- the domain itself is a candidate, so that there is something to choose from
  have hcandidate : domain ∈ p.domainCandidates problem := by
    unfold domainCandidates
    rw [href]
    apply List.mem_filter.mpr
    exact ⟨hd, isDomainNamed_iff.mpr ⟨name, hname, hfold.symm⟩⟩
  obtain ⟨found, hfound⟩ := exists_closest? problem hcandidate
  have hfor : p.domainFor? problem = some found := hfound
  refine ⟨found, name, hfor, (domainFor?_spec hfor).1, hname, ?_⟩
  rw [← refersTo_eq_isDomainNamed hfor]
  exact hrefers

/-- The problem of a plan belongs to the domain that the plan names. -/
theorem isDomainNamed_of_problemFor? {x : String} (h : p.problemFor? plan = some problem)
    (hx : plan.content.schedule?.bind (·.solved.domain?) = some x)
    (hfor : p.domainFor? problem = some domain) : domain.isDomainNamed x = true := by
  rw [← refersTo_eq_isDomainNamed hfor]
  exact (problemFor?_spec h).2 x hx

/-! ## A new version of a domain -/

def wasParsed (p : Project) (f : File) : Bool := (p.find? f.uri).any (·.status == .parsed)

def changedFiles (before after : Project) : List File :=
  after.files.filter fun f => (before.find? f.uri).any (·.status != f.status)

def dependsOnFile (domain f : File) : Bool :=
  f.status == .parsed && domain.domainName?.any f.refersTo

/-- A file of a project after another was put there is the new one, or an old one elsewhere. -/
theorem mem_put (hd : Distinct p.files) (h : f ∈ put domain p.files) :
    f = domain ∨ f.uri ≠ domain.uri ∧ p.find? f.uri = some f := by
  have hfind := find?_of_mem (distinct_put domain hd) h
  rw [find?_put] at hfind
  by_cases e : domain.uri = f.uri
  · rw [if_pos e] at hfind
    exact Or.inl (Option.some.inj hfind).symm
  · rw [if_neg e] at hfind
    exact Or.inr ⟨fun e' => e e'.symm, hfind⟩

theorem any_refersTo_self (domain : File) : domain.domainName?.any domain.refersTo = false := by
  cases h : domain.domainName? with
  | none => rfl
  | some name => exact refersTo_of_domainName? h name

@[simp] theorem soilIf_refersTo (domain? : Option String) (f : File) :
    (soilIf domain? f).refersTo = f.refersTo := by
  rw [soilIf_eq]
  rfl

/-- Storing a domain tells that it is there, and then each file that it makes dirty. -/
theorem store_events (p : Project) (f : File) :
    (p.store f).events = ⟨.inserted, f⟩ ::
      ((put f p.files).filter fun g =>
        g.status == .parsed && (p.changedDomain? f).any g.refersTo).map
          fun g => ⟨.updated, soilIf (p.changedDomain? f) g⟩ := by
  unfold store
  split
  · rename_i hc
    simp [hc]
  · rename_i name hc
    simp only [hc]
    rfl

section Replacing

variable (hd : Distinct p.files) (hchange : p.changedDomain? domain = domain.domainName?)

include hd hchange

/-- The problems that a new version of a domain lists, and that were parsed, are those that it
makes dirty. -/
theorem problemsFor_store : ((p.store domain).project.problemsFor domain).filter (wasParsed p) =
    ((put domain p.files).filter (dependsOnFile domain)).map (soilIf domain.domainName?) := by
  rw [problemsFor_eq, store_files, hchange, List.filter_filter, List.filter_map]
  congr 1
  apply List.filter_congr
  intro f hf
  have huri : wasParsed p (soilIf domain.domainName? f) = wasParsed p f := by simp [wasParsed]
  simp only [Function.comp, soilIf_refersTo, huri, dependsOnFile]
  rcases mem_put hd hf with rfl | ⟨-, hfind⟩
  · simp [any_refersTo_self]
  · simp [wasParsed, hfind]

/-- So are the files elsewhere whose status is another than before. -/
theorem changedFiles_store :
    (changedFiles p (p.store domain).project).filter (·.uri != domain.uri) =
      ((put domain p.files).filter (dependsOnFile domain)).map (soilIf domain.domainName?) := by
  unfold changedFiles
  rw [store_files, hchange, List.filter_filter, List.filter_map]
  congr 1
  apply List.filter_congr
  intro f hf
  simp only [Function.comp, soilIf_uri, dependsOnFile]
  rcases mem_put hd hf with rfl | ⟨hne, hfind⟩
  · simp [any_refersTo_self]
  · rw [hfind, Option.any_some, soilIf_eq]
    by_cases hs : f.status = .parsed ∧ domain.domainName?.any f.refersTo = true
    · simp [hs.1, hs.2, hne]
    · have hb : (f.status == .parsed && domain.domainName?.any f.refersTo) = false := by
        simpa using hs
      simp [hs, hb]

theorem store_events_eq : (p.store domain).events = ⟨.inserted, domain⟩ ::
    (((p.store domain).project.problemsFor domain).filter (wasParsed p)).map (⟨.updated, ·⟩) := by
  rw [problemsFor_store hd hchange, store_events, hchange, List.map_map]
  rfl

theorem dirty_of_mem_store {f : File}
    (h : f ∈ ((p.store domain).project.problemsFor domain).filter (wasParsed p)) :
    f.status = .dirty := by
  rw [problemsFor_store hd hchange] at h
  obtain ⟨g, hg, rfl⟩ := List.mem_map.mp h
  obtain ⟨-, hdep⟩ := List.mem_filter.mp hg
  unfold dependsOnFile at hdep
  rw [Bool.and_eq_true, beq_iff_eq] at hdep
  rw [soilIf_eq]
  exact if_pos hdep

end Replacing

/-- A newer version that is answered with a file is told as storing it is. -/
theorem Leads.events_of_newer {s : Submission} {parse : Bool} {o : Outcome}
    (h : p.Leads (.submit s parse) o) (hn : p.Newer s) (hr : o.reply = .file f) :
    o.events = (p.store f).events := by
  cases h with
  | stale hk hv => exact absurd hn (not_newer hk hv)
  | promoted hk hv => exact absurd hn (not_newer hk (Int.le_of_eq hv))
  | faulted => cases hr
  | stored =>
    cases hr
    rfl
  | registered ha => cases ha

/-! ## All four together -/

/-- In every project that a run leads to:
- a problem is listed by the domain that it is resolved to;
- a problem that a stored domain lists is resolved to a stored domain with the same name;
- if a plan is resolved to a problem, and that problem to a domain, then the domain has the name
  that the plan gives for it, if it gives one;
- if a known file is replaced by a domain, and dirty dependents are kept track of, then the other
  files whose status changes are those problems that the domain lists afterwards and that were
  parsed before. They become dirty, and the events are that the domain is inserted, and then that
  each of them is updated, once and in the order of the list. -/
theorem relations_agree (settings : Settings) (actions : List Action) :
    let p := (empty settings).run actions
    (∀ problem ∈ p.files, ∀ domain, p.domainFor? problem = some domain →
      problem ∈ p.problemsFor domain) ∧
    (∀ domain ∈ p.files, ∀ problem ∈ p.problemsFor domain,
      ∃ found name, p.domainFor? problem = some found ∧ found ∈ p.files ∧
        domain.domainName? = some name ∧ found.isDomainNamed name = true) ∧
    (∀ plan ∈ p.files, ∀ problem domain x, p.problemFor? plan = some problem →
      plan.content.schedule?.bind (·.solved.domain?) = some x →
      p.domainFor? problem = some domain → domain.isDomainNamed x = true) ∧
    ∀ s parse known domain, settings.dirtyDependents = true →
      p.find? s.uri = some known → known.version < s.version →
      (p.step (.submit s parse)).reply = .file domain → domain.isDomain = true →
      let o := p.step (.submit s parse)
      let dirtied := (o.project.problemsFor domain).filter (wasParsed p)
      (changedFiles p o.project).filter (·.uri != domain.uri) = dirtied ∧
        (∀ f ∈ dirtied, f.status = .dirty) ∧ Distinct dirtied ∧
        o.events = ⟨.inserted, domain⟩ :: dirtied.map (⟨.updated, ·⟩) := by
  intro p
  refine ⟨?_, ?_, ?_, ?_⟩
  · intro problem hp domain hfor
    exact mem_problemsFor_of_domainFor? hp hfor
  · intro domain hd problem hp
    exact exists_domainFor?_of_mem hd hp
  · intro plan _ problem domain x hproblem hx hfor
    exact isDomainNamed_of_problemFor? hproblem hx hfor
  · intro s parse known domain hset hknown hv hreply _ o dirtied
    have hd : Distinct p.files := distinct_run (distinct_empty settings) actions
    have hdirty : p.settings.dirtyDependents = true := by
      rw [settings_run]
      exact hset
    have hnewer : p.Newer s := newer_of_known hknown hv
    have hleads : p.Leads (.submit s parse) o := step_leads p _
    obtain ⟨hu, hproject⟩ := hleads.stored_of_newer hnewer hreply
    have hchange : p.changedDomain? domain = domain.domainName? := by
      obtain ⟨hmem, hku⟩ := mem_of_find? hknown
      exact changedDomain?_eq hdirty ⟨known, hmem, hku.trans hu.symm⟩
    have hdirtied : dirtied = ((p.store domain).project.problemsFor domain).filter (wasParsed p) := by
      rw [← hproject]
    refine ⟨?_, ?_, ?_, ?_⟩
    · rw [hdirtied, problemsFor_store hd hchange, hproject]
      exact changedFiles_store hd hchange
    · intro f hf
      rw [hdirtied] at hf
      exact dirty_of_mem_store hd hchange hf
    · have hsub : dirtied.Sublist o.project.files := by
        have hlist : (o.project.problemsFor domain).Sublist o.project.files := by
          rw [problemsFor_eq]
          exact List.filter_sublist
        exact List.filter_sublist.trans hlist
      exact List.Nodup.sublist (hsub.map _) (hleads.distinct hd)
    · rw [hleads.events_of_newer hnewer hreply, hdirtied]
      exact store_events_eq hd hchange

/-- A domain, a parsed problem of it, and a plan for the problem, each spelling the name of the
domain in its own way. -/
def relatedRun : List Action :=
  [.submit ⟨"file:///w/d.pddl", .pddl, 1, "(define (domain Blocks))".toList, none⟩ false,
   .submit ⟨"file:///w/p.pddl", .pddl, 1, "(define (problem p) (:domain blocks))".toList, none⟩
     true,
   .submit ⟨"file:///w/p.plan", .plan, 1, ";;!domain: BLOCKS\n;;!problem: P\n(a)".toList, none⟩
     false]

def nextBlocks : Submission :=
  ⟨"file:///w/d.pddl", .pddl, 2, "(define (domain blocks) (:types t))".toList, none⟩

theorem resolved_relatedRun :
    ∃ plan ∈ ((empty {}).run relatedRun).files,
      plan.content.schedule?.bind (·.solved.domain?) = some "BLOCKS" ∧
      ∃ problem ∈ ((empty {}).run relatedRun).files,
        ((empty {}).run relatedRun).problemFor? plan = some problem ∧
        ∃ domain ∈ ((empty {}).run relatedRun).files,
          ((empty {}).run relatedRun).domainFor? problem = some domain := by
  obtain ⟨plan, hplan, hx, htest⟩ : ∃ plan ∈ ((empty {}).run relatedRun).files,
      plan.content.schedule?.bind (·.solved.domain?) = some "BLOCKS" ∧
      (((empty {}).run relatedRun).problemFor? plan).any (fun problem =>
        (((empty {}).run relatedRun).domainFor? problem).isSome) = true := by
    decide +kernel
  obtain ⟨problem, hproblem, hsome⟩ := (Option.any_eq_true _ _).mp htest
  obtain ⟨domain, hdomain⟩ := Option.isSome_iff_exists.mp hsome
  exact ⟨plan, hplan, hx, problem, (problemFor?_spec hproblem).1, hproblem, domain,
    (domainFor?_spec hdomain).1, hdomain⟩

/-- In that project the relations agree, and the next version of the domain makes the one problem
dirty. -/
theorem the_next_domain_reaches_its_problem :
    let p := (empty {}).run relatedRun
    let o := p.step (.submit nextBlocks false)
    (∃ plan ∈ p.files, ∃ problem ∈ p.files, ∃ domain ∈ p.files,
      p.problemFor? plan = some problem ∧ p.domainFor? problem = some domain ∧
      problem ∈ p.problemsFor domain ∧ domain.isDomainNamed "BLOCKS" = true ∧
      ∃ found name, p.domainFor? problem = some found ∧ domain.domainName? = some name ∧
        found.isDomainNamed name = true) ∧
    ∃ domain f, o.reply = .file domain ∧ domain.isDomain = true ∧
      (o.project.problemsFor domain).filter (wasParsed p) = [f] ∧ f.status = .dirty ∧
      (changedFiles p o.project).filter (·.uri != domain.uri) = [f] ∧
      o.events = [⟨.inserted, domain⟩, ⟨.updated, f⟩] := by
  intro p o
  obtain ⟨hlisted, hresolved, hnamed, hstored⟩ := relations_agree {} relatedRun
  constructor
  · obtain ⟨plan, hplan, hx, problem, hp, hproblem, domain, hd, hdomain⟩ := resolved_relatedRun
    have hmem := hlisted problem hp domain hdomain
    obtain ⟨found, name, hfound, -, hname, hsame⟩ := hresolved domain hd problem hmem
    exact ⟨plan, hplan, problem, hp, domain, hd, hproblem, hdomain, hmem,
      hnamed plan hplan problem domain "BLOCKS" hproblem hx hdomain, found, name, hfound, hname,
      hsame⟩
  · have hknown : (p.find? nextBlocks.uri).any (·.version == 1) = true := by decide +kernel
    obtain ⟨known, hk, hv⟩ := (Option.any_eq_true _ _).mp hknown
    have hnewer : known.version < nextBlocks.version := by
      rw [beq_iff_eq.mp hv]
      decide
    have hreply : (match o.reply with
        | .file f => f.isDomain
        | _ => false) = true := by decide +kernel
    have htwo : o.events.length = 2 := by decide +kernel
    split at hreply
    · rename_i domain hdomain
      obtain ⟨hchanged, hdirty, -, hevents⟩ :=
        hstored nextBlocks false known domain rfl hk hnewer hdomain hreply
      have hone : ((o.project.problemsFor domain).filter (wasParsed p)).length = 1 := by
        have hlength : o.events.length =
            ((o.project.problemsFor domain).filter (wasParsed p)).length + 1 :=
          (congrArg List.length hevents).trans (by rw [List.length_cons, List.length_map])
        omega
      obtain ⟨f, hf⟩ := List.length_eq_one_iff.mp hone
      refine ⟨domain, f, hdomain, hreply, hf, ?_, ?_, ?_⟩
      · apply hdirty
        rw [hf]
        exact List.mem_singleton_self f
      · rw [← hf]
        exact hchanged
      · rw [hf] at hevents
        exact hevents
    · cases hreply

end Pddl.Project
