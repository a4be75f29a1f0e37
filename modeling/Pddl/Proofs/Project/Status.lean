/-
  Pddl.Proofs.Project.Status — the status of a file as a function of its history.

  A file is stored by one step and kept by the later ones until it is replaced or removed
  (`Created`). Its status can be read off these steps (`statusOf`): it is unknown if its content
  is; otherwise new, until a step asks for this version to be parsed; otherwise dirty, if since the
  last such step a known file was replaced by the domain it refers to; otherwise parsed.
  - `statusOf_concat` says how one more step changes that reading;
  - `Leads.fate` says what one step does to a file: it is stored by the step, or was there before
    and is kept with the status that the step gives it (`nextStatus`);
  - `status_is_read_off_history` joins them along a run.
-/

import Mathlib.Data.List.DropRight
import Mathlib.Data.List.Induction
import Pddl.Proofs.Project.Step

namespace Pddl.Project

/-- Whether a step asks for the version of a file at hand to be parsed. -/
def Step.requests (f : File) (t : Step) : Bool :=
  match t.action with
  | .submit s parse => parse && s.uri == f.uri && s.version == f.version
  | _ => false

/-- The name of the domain that a step stores in the place of a known file. -/
def Step.changedDomain? (t : Step) : Option String :=
  match t.stored? with
  | some f => if t.before.has f.uri then f.domainName? else none
  | none => none

def Step.outdates (f : File) (t : Step) : Bool := t.changedDomain?.any f.refersTo

/-- The steps after the last that asks for a file to be parsed. -/
def sinceRequest (f : File) (ts : List Step) : List Step := ts.rtakeWhile fun t => !t.requests f

/-- The status of a file after the steps since it was stored, that step included. -/
def statusOf (settings : Settings) (f : File) (ts : List Step) : Status :=
  if f.content.isUnknown then .unknown
  else if !ts.any (Step.requests f) then .new
  else if settings.dirtyDependents && (sinceRequest f ts).any (Step.outdates f) then .dirty
  else .parsed

def nextStatus (settings : Settings) (t : Step) (f : File) : Status :=
  if f.status = .unknown then .unknown
  else if t.requests f then .parsed
  else if f.status = .parsed ∧ (settings.dirtyDependents && t.outdates f) = true then .dirty
  else f.status

theorem sinceRequest_concat (f : File) (ts : List Step) (t : Step) :
    sinceRequest f (ts ++ [t]) = if t.requests f then [] else sinceRequest f ts ++ [t] := by
  unfold sinceRequest
  rw [List.rtakeWhile_concat]
  cases t.requests f <;> rfl

/-- One more step changes the status that is read off the steps as it changes that of a file. -/
theorem statusOf_concat {settings : Settings} {f : File} {ts : List Step} (t : Step)
    (h : f.status = statusOf settings f ts) :
    statusOf settings f (ts ++ [t]) = nextStatus settings t f := by
  unfold statusOf at h ⊢
  unfold nextStatus
  by_cases hu : f.content.isUnknown = true
  · rw [if_pos hu] at h ⊢
    rw [if_pos h]
  rw [if_neg hu] at h ⊢
  have hknown : f.status ≠ .unknown := by
    rw [h]
    split
    · decide
    · split <;> decide
  rw [if_neg hknown, List.any_append, sinceRequest_concat]
  by_cases hr : t.requests f = true
  · -- a request makes the file parsed, and no step is after it
    simp [hr]
  by_cases hany : ts.any (Step.requests f) = true
  · -- the step is one more after the last request
    simp only [hany, hr, Bool.not_true, Bool.false_eq_true, if_false,
      List.any_append, List.any_cons, List.any_nil, Bool.or_false, Bool.and_or_distrib_left] at h ⊢
    by_cases hd : (settings.dirtyDependents && (sinceRequest f ts).any (Step.outdates f)) = true
    · rw [if_pos hd] at h
      rw [hd, Bool.true_or, if_pos rfl, h]
      rfl
    · rw [if_neg hd] at h
      simp [hd, h]
  · have hnew : f.status = .new := by simpa [hany] using h
    simp [hany, hr, hnew]

/-- A file that was just stored has the status of the step that stored it. -/
theorem statusOf_fileOf (settings : Settings) (p : Project) (s : Submission) (parse : Bool)
    (content : Content) :
    statusOf settings (fileOf s parse content) [⟨p, .submit s parse⟩] =
      (fileOf s parse content).status := by
  have hr : Step.requests (fileOf s parse content) ⟨p, .submit s parse⟩ = parse := by
    simp [Step.requests, fileOf]
  have hs : sinceRequest (fileOf s parse content) [⟨p, .submit s parse⟩] =
      if parse then [] else [⟨p, .submit s parse⟩] := by
    have hone := sinceRequest_concat (fileOf s parse content) [] ⟨p, .submit s parse⟩
    rwa [hr] at hone
  unfold statusOf
  rw [hs, List.any_cons, hr]
  cases parse <;> simp [fileOf]

/-! ## What a step does to a file -/

section Fate

variable {p : Project} {f : File}

theorem outdates_of_stored?_none {a : Action} (h : Step.stored? ⟨p, a⟩ = none) :
    Step.outdates f ⟨p, a⟩ = false := by
  simp [Step.outdates, Step.changedDomain?, h]

theorem requests_of_registers {a : Action} (h : a.registers = true) :
    Step.requests f ⟨p, a⟩ = false := by
  cases a with
  | submit | remove => cases h
  | extend | addReaders | subscribe => rfl

theorem requests_of_uri_ne {s : Submission} {parse : Bool} (h : s.uri ≠ f.uri) :
    Step.requests f ⟨p, .submit s parse⟩ = false := by
  simp [Step.requests, h]

theorem requests_of_newer {s : Submission} (parse : Bool) (hn : p.Newer s)
    (hf : p.find? f.uri = some f) : Step.requests f ⟨p, .submit s parse⟩ = false := by
  by_cases e : s.uri = f.uri
  · have hv := hn f (e ▸ hf)
    have : s.version ≠ f.version := by omega
    simp [Step.requests, this]
  · exact requests_of_uri_ne e

/-- A step that asks nothing of a file and does not change its domain leaves its status. -/
theorem nextStatus_quiet {settings : Settings} {t : Step} (hr : t.requests f = false)
    (ho : t.outdates f = false) : nextStatus settings t f = f.status := by
  unfold nextStatus
  by_cases hu : f.status = .unknown
  · rw [if_pos hu, hu]
  · simp [hu, hr, ho]

/-- A file that is there after a step was stored by it, or was there before, is neither replaced
nor removed, and has the next status. -/
def Fate (t : Step) (f' : File) : Prop :=
  t.stored? = some f' ∨
    ∃ f, t.before.find? f.uri = some f ∧ (∀ g, t.stored? = some g → g.uri ≠ f.uri) ∧
      t.action ≠ .remove f.uri ∧ f' = { f with status := nextStatus t.before.settings t f }

/-- A step that stores nothing, and does not remove the file, keeps it. -/
theorem fate_kept {a : Action} (hf : p.find? f.uri = some f) (hs : Step.stored? ⟨p, a⟩ = none)
    (ha : a ≠ .remove f.uri) :
    Fate ⟨p, a⟩ { f with status := nextStatus p.settings ⟨p, a⟩ f } := by
  refine Or.inr ⟨f, hf, fun g hg => ?_, ha, rfl⟩
  rw [hs] at hg
  cases hg

/-- It is left as it is if the step does not ask for it. -/
theorem fate_quiet {a : Action} {uri : String} (hf : p.find? uri = some f)
    (hs : Step.stored? ⟨p, a⟩ = none) (ha : a ≠ .remove uri)
    (hr : Step.requests f ⟨p, a⟩ = false) : Fate ⟨p, a⟩ f := by
  obtain rfl : f.uri = uri := (mem_of_find? hf).2
  have hkept := fate_kept hf hs ha
  rwa [nextStatus_quiet hr (outdates_of_stored?_none hs)] at hkept

/-- A file that is asked to be parsed, and cannot be promoted, keeps its status. -/
theorem nextStatus_of_not_promotable {settings : Settings} {t : Step} (hr : t.requests f = true)
    (hp : promotable f = false) : nextStatus settings t f = f.status := by
  unfold nextStatus
  cases hs : f.status with
  | new | dirty => simp [promotable, hs] at hp
  | parsed => simp [hr]
  | unknown => simp

theorem fate_stale {s : Submission} {parse : Bool} {known : File} {uri : String}
    (hk : p.find? s.uri = some known) (hv : s.version ≤ known.version)
    (hp : parse = true → s.version = known.version → promotable known = false)
    (hf : p.find? uri = some f) : Fate ⟨p, .submit s parse⟩ f := by
  have hs := stored?_of_known parse hk hv
  by_cases hr : Step.requests f ⟨p, .submit s parse⟩ = true
  · have hreq := hr
    simp only [Step.requests, Bool.and_eq_true, beq_iff_eq] at hreq
    obtain ⟨⟨hparse, hu⟩, hver⟩ := hreq
    obtain rfl : f.uri = uri := (mem_of_find? hf).2
    obtain rfl : known = f := by
      rw [hu, hf] at hk
      exact (Option.some.inj hk).symm
    have hkept := fate_kept hf hs fun e => by cases e
    rwa [nextStatus_of_not_promotable hr (hp hparse hver)] at hkept
  · exact fate_quiet hf hs (fun e => by cases e) (by simpa using hr)

theorem fate_promoted {s : Submission} {known : File} (hk : p.find? s.uri = some known)
    (hv : s.version = known.version) (hp : promotable known = true) :
    Fate ⟨p, .submit s true⟩ { known with status := .parsed } := by
  have hu : known.uri = s.uri := (mem_of_find? hk).2
  have hr : Step.requests known ⟨p, .submit s true⟩ = true := by simp [Step.requests, hu, hv]
  have hnext : nextStatus p.settings ⟨p, .submit s true⟩ known = .parsed := by
    unfold nextStatus
    cases hs : known.status with
    | new | dirty => simp [hr]
    | parsed | unknown => simp [promotable, hs] at hp
  have hs := stored?_of_known true hk (Int.le_of_eq hv)
  have hkept := fate_kept (f := known) (hu ▸ hk) hs fun e => by cases e
  rwa [hnext] at hkept

/-- Storing a file gives each other one its next status. -/
theorem fate_beside_stored {s : Submission} {parse : Bool} {g : File} {uri : String}
    (hn : p.Newer s) (hs : Step.stored? ⟨p, .submit s parse⟩ = some g) (hne : g.uri ≠ uri)
    (hf : p.find? uri = some f) : Fate ⟨p, .submit s parse⟩ (soilIf (p.changedDomain? g) f) := by
  obtain rfl : f.uri = uri := (mem_of_find? hf).2
  have hr := requests_of_newer parse hn hf
  have hchange : (p.changedDomain? g).any f.refersTo =
      (p.settings.dirtyDependents && Step.outdates f ⟨p, .submit s parse⟩) := by
    simp only [changedDomain?, Step.outdates, Step.changedDomain?, hs]
    cases p.settings.dirtyDependents <;> simp
  refine Or.inr ⟨f, hf, fun g' hg' => ?_, fun e => ?_, ?_⟩
  · rw [hs] at hg'
    cases hg'
    exact hne
  · cases e
  · rw [soilIf_eq, hchange]
    congr 1
    unfold nextStatus
    cases hst : f.status <;> simp [hr]

theorem Leads.fate {a : Action} {o : Outcome} {uri : String} (h : p.Leads a o)
    (hf : o.project.find? uri = some f) : Fate ⟨p, a⟩ f := by
  cases h with
  | stale hk hv hp => exact fate_stale hk hv hp hf
  | @promoted s known g _ hk hv hp hg =>
    have hu : g.uri = s.uri := by rw [hg]; exact (mem_of_find? hk).2
    have hput : (put g p.files).find? (·.uri == uri) = some f := hf
    rw [find?_put, hu] at hput
    by_cases e : s.uri = uri
    · rw [if_pos e] at hput
      rw [← Option.some.inj hput, hg]
      exact fate_promoted hk hv hp
    · rw [if_neg e] at hput
      refine fate_quiet hput (stored?_of_known true hk (Int.le_of_eq hv)) (fun e' => by cases e') ?_
      exact requests_of_uri_ne fun e' => e (e'.trans (mem_of_find? hput).2)
  | @faulted s parse _ _ hn ho =>
    obtain rfl : f.uri = uri := (mem_of_find? hf).2
    exact fate_quiet hf (stored?_of_error parse ho) (fun e => by cases e)
      (requests_of_newer parse hn hf)
  | @stored s parse content g _ hn ho hg =>
    have hs : Step.stored? ⟨p, .submit s parse⟩ = some g := by
      rw [hg]
      exact stored?_of_newer parse hn ho
    rw [find?_store] at hf
    by_cases e : g.uri = uri
    · rw [if_pos e] at hf
      rw [hf] at hs
      exact Or.inl hs
    · rw [if_neg e] at hf
      obtain ⟨f₀, hf₀, rfl⟩ := Option.map_eq_some_iff.mp hf
      exact fate_beside_stored hn hs e hf₀
  | @absent gone _ hk =>
    refine fate_quiet hf rfl (fun e => ?_) rfl
    cases e
    rw [hk] at hf
    cases hf
  | @removed gone _ _ _ =>
    have hfilter : (p.files.filter (·.uri != gone)).find? (·.uri == uri) = some f := hf
    rw [find?_remove] at hfilter
    by_cases e : gone = uri
    · rw [if_pos e] at hfilter
      cases hfilter
    · rw [if_neg e] at hfilter
      exact fate_quiet hfilter rfl (fun e' => e (by cases e'; rfl)) rfl
  | registered ha hfiles =>
    unfold find? at hf
    rw [hfiles] at hf
    refine fate_quiet hf (stored?_of_registers ha) (fun e => ?_) (requests_of_registers ha)
    rw [e] at ha
    cases ha

end Fate

/-! ## Along a run -/

/-- A submission brought a file into a project, and the actions after it neither replaced nor
removed it. -/
def Created (p : Project) (s : Submission) (parse : Bool) (after : List Action) (f : File) :
    Prop :=
  (∃ g, Step.stored? ⟨p, .submit s parse⟩ = some g ∧ f = { g with status := f.status }) ∧
  ∀ t ∈ (p.step (.submit s parse)).project.steps after,
    (∀ g, t.stored? = some g → g.uri ≠ f.uri) ∧ t.action ≠ .remove f.uri

/-- A file that was created before, and is kept by one more step, is still that file. -/
theorem Created.concat {p : Project} {s : Submission} {parse : Bool} {after : List Action}
    {f : File} {a : Action} {status : Status} (h : Created p s parse after f)
    (hs : ∀ g, Step.stored? ⟨(p.step (.submit s parse)).project.run after, a⟩ = some g →
      g.uri ≠ f.uri)
    (ha : a ≠ .remove f.uri) :
    Created p s parse (after ++ [a]) { f with status := status } := by
  obtain ⟨⟨g, hg, hf⟩, hkept⟩ := h
  refine ⟨⟨g, hg, ?_⟩, ?_⟩
  · rw [hf]
  · intro t ht
    rw [steps_concat] at ht
    rcases List.mem_append.mp ht with ht | ht
    · exact hkept t ht
    · rw [List.mem_singleton.mp ht]
      exact ⟨hs, ha⟩

/-- The status of every file is the one that is read off the steps since it was stored: there is
the submission that created it, and
- the status is unknown if and only if the content is;
- otherwise it is new if and only if no step since then, the creating one included, asks for this
  version to be parsed;
- otherwise it is dirty if and only if dirty dependents are kept track of, and after the last such
  step some submission replaced a known file by a domain with the name that the file refers to;
- otherwise it is parsed. -/
theorem status_is_read_off_history (settings : Settings) (actions : List Action) (f : File)
    (hf : f ∈ ((empty settings).run actions).files) :
    ∃ before s parse after, actions = before ++ .submit s parse :: after ∧
      Created ((empty settings).run before) s parse after f ∧
      f.status =
        statusOf settings f (((empty settings).run before).steps (.submit s parse :: after)) := by
  induction actions using List.reverseRecOn generalizing f with
  | nil => cases hf
  | append_singleton as a ih =>
    have hd := distinct_run (distinct_empty settings) (as ++ [a])
    have hfind := find?_of_mem hd hf
    rw [run_concat] at hfind
    rcases (step_leads ((empty settings).run as) a).fate hfind with hstored | ⟨f₀, hf₀, hs, ha, rfl⟩
    · -- the last step stored the file
      obtain ⟨s, parse, content, hact, -, -, hfile⟩ := stored?_eq_some hstored
      obtain rfl : a = .submit s parse := hact
      refine ⟨as, s, parse, [], rfl, ⟨⟨f, hstored, rfl⟩, fun t ht => by cases ht⟩, ?_⟩
      rw [hfile]
      exact (statusOf_fileOf settings _ s parse content).symm
    · -- it was there before the last step
      obtain ⟨before, s, parse, after, rfl, hc, hstatus⟩ := ih f₀ (mem_of_find? hf₀).1
      have hrun : (empty settings).run (before ++ .submit s parse :: after) =
          (((empty settings).run before).step (.submit s parse)).project.run after := by
        rw [run_append, run_cons]
      refine ⟨before, s, parse, after ++ [a], by simp, ?_, ?_⟩
      · rw [hrun] at hs
        exact hc.concat hs ha
      · have hset : ((empty settings).run (before ++ .submit s parse :: after)).settings =
            settings := settings_run _ _
        have hsteps : ((empty settings).run before).steps (.submit s parse :: (after ++ [a])) =
            ((empty settings).run before).steps (.submit s parse :: after) ++
              [⟨(empty settings).run (before ++ .submit s parse :: after), a⟩] := by
          rw [← List.cons_append, steps_concat, ← run_append]
        rw [hsteps]
        have hnext := statusOf_concat
          ⟨(empty settings).run (before ++ .submit s parse :: after), a⟩ hstatus
        simp only [hset]
        exact hnext.symm

def outdatedRun : List Action :=
  [.submit ⟨"file:///w/d.pddl", .pddl, 1, "(define (domain blocks))".toList, none⟩ false,
   .submit ⟨"file:///w/p.pddl", .pddl, 1, "(define (problem p) (:domain Blocks))".toList, none⟩
     true,
   .submit ⟨"file:///w/d.pddl", .pddl, 2, "(define (domain blocks) (:types a))".toList, none⟩
     false]

/-- The problem is dirty at the end of that run, and its history says so. -/
theorem an_outdated_problem_is_dirty :
    ∃ f ∈ ((empty {}).run outdatedRun).files, f.isProblem = true ∧ f.status = .dirty ∧
      ∃ before s parse after, outdatedRun = before ++ .submit s parse :: after ∧
        Created ((empty {}).run before) s parse after f ∧
        f.status = statusOf {} f (((empty {}).run before).steps (.submit s parse :: after)) := by
  obtain ⟨f, hf, hp, hs⟩ : ∃ f ∈ ((empty {}).run outdatedRun).files,
      f.isProblem = true ∧ f.status = .dirty := by decide +kernel
  exact ⟨f, hf, hp, hs, status_is_read_off_history {} outdatedRun f hf⟩

end Pddl.Project
