/-
  Pddl.Proofs.Project.Step — what one action can do to a project, and what a run of them is.

  `Leads` lists the seven things that an action can lead to, each with its guard, the project
  after it, the attempts of readers and the events; `step_leads` says that there is no eighth.
  Every fact about runs is proved from these cases and not from the definition of a step.

  A run is kept as the list of its steps (`steps`), each an action with the project that it found.
  - `settings_run`: a run keeps the settings;
  - `distinct_run`: a run from the empty project keeps one file for each URI.
-/

import Pddl.Proofs.Project.Files

namespace Pddl

def Action.registers : Action → Bool
  | .submit _ _ => false
  | .remove _ => false
  | .extend _ => true
  | .addReaders _ => true
  | .subscribe _ => true

namespace Project

def Newer (p : Project) (s : Submission) : Prop :=
  ∀ known, p.find? s.uri = some known → known.version < s.version

theorem not_newer {p : Project} {s : Submission} {known : File}
    (hk : p.find? s.uri = some known) (hv : s.version ≤ known.version) : ¬ p.Newer s := by
  intro hn
  have := hn known hk
  omega

theorem newer_of_known {p : Project} {s : Submission} {known : File}
    (hk : p.find? s.uri = some known) (hv : known.version < s.version) : p.Newer s := by
  intro g hg
  rw [hk] at hg
  rw [← Option.some.inj hg]
  exact hv

def attemptsOn (p : Project) (s : Submission) : List Attempt :=
  Reader.consult (sourceOf s) p.readers

inductive Leads (p : Project) : Action → Outcome → Prop
  /-- The version at hand is not older, and there is nothing to promote. -/
  | stale {s : Submission} {parse : Bool} {known : File} {log : List Log.Entry} :
      p.find? s.uri = some known → s.version ≤ known.version →
      (parse = true → s.version = known.version → promotable known = false) →
      Leads p (.submit s parse) ⟨p, .file known, log, [], []⟩
  /-- The version at hand is asked to be parsed, and was not. -/
  | promoted {s : Submission} {known f : File} {log : List Log.Entry} :
      p.find? s.uri = some known → s.version = known.version → promotable known = true →
      f = { known with status := .parsed } →
      Leads p (.submit s true)
        ⟨{ p with files := put f p.files }, .file f, log, [], [⟨.updated, f⟩]⟩
  /-- A reader faults on a newer version. -/
  | faulted {s : Submission} {parse : Bool} {fault : Fault} {log : List Log.Entry} :
      p.Newer s → Reader.outcome (p.attemptsOn s) = .error fault →
      Leads p (.submit s parse) ⟨p, .fault fault, log, p.attemptsOn s, []⟩
  /-- A newer version is stored. -/
  | stored {s : Submission} {parse : Bool} {content : Content} {f : File} {log : List Log.Entry} :
      p.Newer s → Reader.outcome (p.attemptsOn s) = .ok content → f = fileOf s parse content →
      Leads p (.submit s parse)
        ⟨(p.store f).project, .file f, log, p.attemptsOn s, (p.store f).events⟩
  /-- There is no file to remove. -/
  | absent {uri : String} {log : List Log.Entry} : p.find? uri = none →
      Leads p (.remove uri) ⟨p, .removed false, log, [], []⟩
  | removed {uri : String} {f : File} {log : List Log.Entry} : p.find? uri = some f →
      Leads p (.remove uri)
        ⟨{ p with files := p.files.filter (·.uri != uri) }, .removed true, log, [], [⟨.removed, f⟩]⟩
  | registered {a : Action} {q : Project} {reply : Reply} {log : List Log.Entry} :
      a.registers = true → q.files = p.files → q.settings = p.settings →
      p.subscribers <+: q.subscribers → Leads p a ⟨q, reply, log, [], []⟩

theorem submitStale_leads {p : Project} {s : Submission} {known : File} (parse : Bool)
    (hk : p.find? s.uri = some known) (hv : s.version ≤ known.version) :
    p.Leads (.submit s parse) (p.submitStale s parse known) := by
  unfold submitStale
  by_cases hc : (parse && known.version == s.version && promotable known) = true
  · simp only [hc, if_true]
    simp only [Bool.and_eq_true, beq_iff_eq] at hc
    obtain ⟨⟨rfl, hv⟩, hp⟩ := hc
    exact .promoted hk hv.symm hp rfl
  · simp only [hc]
    refine .stale hk hv fun hparse he => ?_
    simpa [hparse, he] using hc

theorem store_reply (p : Project) (f : File) : (p.store f).reply = .file f := by
  unfold store
  split <;> rfl

theorem submitNew_leads {p : Project} {s : Submission} (parse : Bool) (hn : p.Newer s) :
    p.Leads (.submit s parse) (p.submitNew s parse) := by
  unfold submitNew
  cases ho : Reader.outcome (p.attemptsOn s) with
  | error fault =>
    have ho' := ho
    unfold attemptsOn at ho'
    simp only [ho']
    exact .faulted hn ho
  | ok content =>
    have ho' := ho
    unfold attemptsOn at ho'
    simp only [ho', store_reply]
    exact .stored hn ho rfl

theorem submit_leads (p : Project) (s : Submission) (parse : Bool) :
    p.Leads (.submit s parse) (p.submit s parse) := by
  unfold submit
  cases hk : p.find? s.uri with
  | none =>
    exact submitNew_leads parse fun known h => by rw [hk] at h; cases h
  | some known =>
    simp only
    split
    · rename_i hv
      exact submitStale_leads parse hk hv
    · rename_i hv
      refine submitNew_leads parse fun g h => ?_
      rw [hk] at h
      cases h
      omega

theorem remove_leads (p : Project) (uri : String) : p.Leads (.remove uri) (p.remove uri) := by
  unfold remove
  cases hk : p.find? uri with
  | none => exact .absent hk
  | some f => exact .removed hk

/-- A step leads to one of the seven outcomes. -/
theorem step_leads (p : Project) (a : Action) : p.Leads a (p.step a) := by
  cases a with
  | submit s parse => exact submit_leads p s parse
  | remove uri => exact remove_leads p uri
  | extend readers? =>
    simp only [step, extend]
    split <;> exact .registered rfl rfl rfl (List.prefix_refl _)
  | addReaders readers => exact .registered rfl rfl rfl (List.prefix_refl _)
  | subscribe tag => exact .registered rfl rfl rfl (List.prefix_append _ _)

/-! ## Runs -/

structure Step where
  before : Project
  action : Action

def Step.outcome (t : Step) : Outcome := t.before.step t.action

def steps (p : Project) : List Action → List Step
  | [] => []
  | a :: as => ⟨p, a⟩ :: steps (p.step a).project as

theorem run_cons (p : Project) (a : Action) (as : List Action) :
    p.run (a :: as) = (p.step a).project.run as := rfl

theorem run_append (p : Project) (as bs : List Action) :
    p.run (as ++ bs) = (p.run as).run bs := List.foldl_append

theorem run_concat (p : Project) (as : List Action) (a : Action) :
    p.run (as ++ [a]) = ((p.run as).step a).project := run_append p as [a]

theorem steps_append (p : Project) (as bs : List Action) :
    p.steps (as ++ bs) = p.steps as ++ (p.run as).steps bs := by
  induction as generalizing p with
  | nil => rfl
  | cons a as ih =>
    simp only [List.cons_append, steps, run_cons]
    rw [ih]

theorem steps_concat (p : Project) (as : List Action) (a : Action) :
    p.steps (as ++ [a]) = p.steps as ++ [⟨p.run as, a⟩] := steps_append p as [a]

/-- Every step of a run is taken after some of its actions. -/
theorem mem_steps {p : Project} {as : List Action} {t : Step} (h : t ∈ p.steps as) :
    ∃ before after, as = before ++ t.action :: after ∧ t.before = p.run before := by
  induction as generalizing p with
  | nil => cases h
  | cons a as ih =>
    rcases List.mem_cons.mp h with rfl | h
    · exact ⟨[], as, rfl, rfl⟩
    · obtain ⟨before, after, rfl, hb⟩ := ih h
      exact ⟨a :: before, after, rfl, hb⟩

/-! ## The file that a step stores -/

/-- The file that a step stores: what a submission becomes that is newer than the file at hand, if
no reader faults on it. -/
def Step.stored? (t : Step) : Option File :=
  match t.action with
  | .submit s parse =>
    if (t.before.find? s.uri).any (s.version ≤ ·.version) then none
    else
      match Reader.outcome (t.before.attemptsOn s) with
      | .ok content => some (fileOf s parse content)
      | .error _ => none
  | _ => none

theorem newer_iff_any (p : Project) (s : Submission) :
    p.Newer s ↔ (p.find? s.uri).any (s.version ≤ ·.version) = false := by
  unfold Newer
  cases p.find? s.uri <;> simp

theorem stored?_of_known {p : Project} {s : Submission} {known : File} (parse : Bool)
    (hk : p.find? s.uri = some known) (hv : s.version ≤ known.version) :
    Step.stored? ⟨p, .submit s parse⟩ = none := by
  simp [Step.stored?, hk, hv]

theorem stored?_of_error {p : Project} {s : Submission} {fault : Fault} (parse : Bool)
    (ho : Reader.outcome (p.attemptsOn s) = .error fault) :
    Step.stored? ⟨p, .submit s parse⟩ = none := by
  simp [Step.stored?, ho]

theorem stored?_of_newer {p : Project} {s : Submission} {content : Content} (parse : Bool)
    (hn : p.Newer s) (ho : Reader.outcome (p.attemptsOn s) = .ok content) :
    Step.stored? ⟨p, .submit s parse⟩ = some (fileOf s parse content) := by
  rw [newer_iff_any] at hn
  simp [Step.stored?, hn, ho]

theorem stored?_eq_some {t : Step} {f : File} (h : t.stored? = some f) :
    ∃ s parse content, t.action = .submit s parse ∧ t.before.Newer s ∧
      Reader.outcome (t.before.attemptsOn s) = .ok content ∧ f = fileOf s parse content := by
  unfold Step.stored? at h
  split at h
  · rename_i s parse ha
    split at h
    · cases h
    · rename_i hn
      split at h
      · rename_i content ho
        refine ⟨s, parse, content, ha, ?_, ho, (Option.some.inj h).symm⟩
        rw [newer_iff_any]
        simpa using hn
      · cases h
  · cases h

theorem stored?_of_registers {p : Project} {a : Action} (h : a.registers = true) :
    Step.stored? ⟨p, a⟩ = none := by
  cases a with
  | submit | remove => cases h
  | extend | addReaders | subscribe => rfl

/-! ## What every step keeps -/

theorem store_settings (p : Project) (f : File) : (p.store f).project.settings = p.settings := by
  unfold store
  split <;> rfl

theorem Leads.settings {p : Project} {a : Action} {o : Outcome} (h : p.Leads a o) :
    o.project.settings = p.settings := by
  cases h with
  | stale | promoted | faulted | absent | removed => rfl
  | stored => exact store_settings p _
  | registered _ _ hs => exact hs

theorem settings_run (p : Project) (as : List Action) : (p.run as).settings = p.settings := by
  induction as generalizing p with
  | nil => rfl
  | cons a as ih => rw [run_cons, ih, (step_leads p a).settings]

theorem store_subscribers (p : Project) (f : File) :
    (p.store f).project.subscribers = p.subscribers := by
  unfold store
  split <;> rfl

/-- Subscribers keep their places. -/
theorem Leads.subscribers {p : Project} {a : Action} {o : Outcome} (h : p.Leads a o) :
    p.subscribers <+: o.project.subscribers := by
  cases h with
  | stale | promoted | faulted | absent | removed => exact List.prefix_refl _
  | stored =>
    simp only [store_subscribers]
    exact List.prefix_refl _
  | registered _ _ _ hs => exact hs

theorem subscribers_run (p : Project) (as : List Action) :
    p.subscribers <+: (p.run as).subscribers := by
  induction as generalizing p with
  | nil => exact List.prefix_refl _
  | cons a as ih => exact (step_leads p a).subscribers.trans (ih _)

theorem distinct_store {p : Project} (hd : Distinct p.files) (f : File) :
    Distinct (p.store f).project.files := by
  rw [store_files]
  exact distinct_soilIf _ (distinct_put f hd)

theorem Leads.distinct {p : Project} {a : Action} {o : Outcome} (h : p.Leads a o)
    (hd : Distinct p.files) : Distinct o.project.files := by
  cases h with
  | stale | faulted | absent => exact hd
  | promoted => exact distinct_put _ hd
  | stored => exact distinct_store hd _
  | removed => exact distinct_remove _ hd
  | registered _ hf =>
    simp only [hf]
    exact hd

theorem distinct_run {p : Project} (hd : Distinct p.files) (as : List Action) :
    Distinct (p.run as).files := by
  induction as generalizing p with
  | nil => exact hd
  | cons a as ih => exact ih ((step_leads p a).distinct hd)

theorem distinct_empty (settings : Settings) : Distinct (empty settings).files := List.nodup_nil

end Project

end Pddl
