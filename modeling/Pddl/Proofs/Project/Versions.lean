/-
  Pddl.Proofs.Project.Versions — which version of a file a project holds.

  What is stored at a URI is a function of the submissions of that file that were answered since
  it was last removed (`upserts`), and of nothing else: it is the first of those with the highest
  version. A submission on which a reader faults is not answered; it leaves the project as it was
  and is not counted. With each submission goes the chain of readers that the registrations before
  it give, and what becomes of it is told by this chain alone (`Reader.Settled`).
  - `Holds` is the invariant: nothing is stored when there were no such submissions, and otherwise
    what the first of the newest became (`FirstNewest`, `Upsert.Made`);
  - `newer_iff`: the gate of a submission, which asks only for the version at hand, compares it
    with all of them;
  - `step_settled`, `Leads.of_not_newer`: past the gate the readers are asked along the chain, and
    in front of it no reader is asked;
  - `first_newest_is_stored`: the closed form, and who is asked in every step of a run.
-/

import Mathlib.Data.List.Induction
import Pddl.Proofs.Project.Readers

namespace Pddl.Project

/-- A submission that was answered, and the chain of readers when it came. -/
structure Upsert where
  submission : Submission
  readers : List Reader

def Upsert.version (u : Upsert) : Int := u.submission.version

/-- A file is what a submission became: all of it but the status. -/
structure Upsert.Made (u : Upsert) (f : File) : Prop where
  version : f.version = u.version
  language : f.language = u.submission.language
  text : f.tree.text = u.submission.text
  tree : f.tree = Tree.ofText u.submission.text
  locator : f.locator = u.submission.locator?.getD (Locator.ofText u.submission.text)
  /-- Asking along the chain of that time leads to the content. -/
  content : ∃ asked, Reader.Settled (sourceOf u.submission) u.readers asked (.ok f.content)

def Step.answered (t : Step) : Bool :=
  match t.outcome.reply with
  | .fault _ => false
  | _ => true

theorem Step.answered_of_file {t : Step} {f : File} (h : t.outcome.reply = .file f) :
    t.answered = true := by
  rw [answered, h]

theorem Step.answered_of_fault {t : Step} {fault : Fault} (h : t.outcome.reply = .fault fault) :
    t.answered = false := by
  rw [answered, h]

/-- The submissions of a file that are in effect after one more step, before which there was a
chain of readers. -/
def note (chain : List Reader) (uri : String) (us : List Upsert) (t : Step) : List Upsert :=
  match t.action with
  | .submit s _ => if s.uri = uri ∧ t.answered = true then us ++ [⟨s, chain⟩] else us
  | .remove gone => if gone = uri then [] else us
  | _ => us

def upsertsFrom (settings : Settings) (uri : String) (us : List Upsert) (before : List Action) :
    List Action → List Upsert
  | [] => us
  | a :: after =>
    let t : Step := ⟨(empty settings).run before, a⟩
    upsertsFrom settings uri (note (chainAfter settings before) uri us t) (before ++ [a]) after

/-- The submissions of a file that were answered since it was last removed, in their order. -/
def upserts (settings : Settings) (uri : String) (actions : List Action) : List Upsert :=
  upsertsFrom settings uri [] [] actions

theorem upsertsFrom_append (settings : Settings) (uri : String) (us : List Upsert)
    (before as bs : List Action) :
    upsertsFrom settings uri us before (as ++ bs) =
      upsertsFrom settings uri (upsertsFrom settings uri us before as) (before ++ as) bs := by
  induction as generalizing us before with
  | nil => rw [List.nil_append, List.append_nil, upsertsFrom]
  | cons a as ih => rw [List.cons_append, upsertsFrom, ih, upsertsFrom, List.append_assoc]; rfl

theorem upserts_concat (settings : Settings) (uri : String) (as : List Action) (a : Action) :
    upserts settings uri (as ++ [a]) =
      note (chainAfter settings as) uri (upserts settings uri as)
        ⟨(empty settings).run as, a⟩ := by
  unfold upserts
  rw [upsertsFrom_append]
  rfl

/-! ## The first of the newest -/

def FirstNewest (us : List Upsert) (u : Upsert) : Prop :=
  ∃ older later, us = older ++ u :: later ∧ (∀ x ∈ older, x.version < u.version) ∧
    ∀ x ∈ later, x.version ≤ u.version

theorem FirstNewest.mem {us : List Upsert} {u : Upsert} (h : FirstNewest us u) : u ∈ us := by
  obtain ⟨older, later, rfl, -, -⟩ := h
  simp

theorem FirstNewest.le {us : List Upsert} {u : Upsert} (h : FirstNewest us u) :
    ∀ x ∈ us, x.version ≤ u.version := by
  obtain ⟨older, later, rfl, ho, hl⟩ := h
  intro x hx
  rcases List.mem_append.mp hx with hx | hx
  · have := ho x hx
    omega
  · rcases List.mem_cons.mp hx with rfl | hx
    · exact Int.le_refl _
    · exact hl x hx

theorem FirstNewest.concat {us : List Upsert} {u x : Upsert} (h : FirstNewest us u)
    (hx : x.version ≤ u.version) : FirstNewest (us ++ [x]) u := by
  obtain ⟨older, later, rfl, ho, hl⟩ := h
  refine ⟨older, later ++ [x], by simp, ho, ?_⟩
  intro y hy
  rcases List.mem_append.mp hy with hy | hy
  · exact hl y hy
  · rw [List.mem_singleton.mp hy]
    exact hx

theorem firstNewest_last {us : List Upsert} {x : Upsert} (h : ∀ y ∈ us, y.version < x.version) :
    FirstNewest (us ++ [x]) x :=
  ⟨us, [], rfl, h, fun _ hy => by cases hy⟩

/-! ## The invariant -/

def Holds (us : List Upsert) : Option File → Prop
  | none => us = []
  | some f => ∃ u, FirstNewest us u ∧ u.Made f

variable {p : Project} {us : List Upsert}

/-- To be newer than the version at hand is to be newer than every version since the removal. -/
theorem newer_iff {s : Submission} (hi : Holds us (p.find? s.uri)) :
    p.Newer s ↔ ∀ u ∈ us, u.version < s.version := by
  unfold Newer
  cases hk : p.find? s.uri with
  | none =>
    rw [hk] at hi
    obtain rfl : us = [] := hi
    simp
  | some known =>
    rw [hk] at hi
    obtain ⟨u, hu, hm⟩ := hi
    have hv := hm.version
    constructor
    · intro h x hx
      have h1 := h known rfl
      have h2 := hu.le x hx
      omega
    · rintro h _ ⟨⟩
      have := h u hu.mem
      omega

/-- The status of a file has no part in what it was made from. -/
theorem Upsert.Made.withStatus {u : Upsert} {f : File} (h : u.Made f) (status : Status) :
    u.Made { f with status := status } :=
  ⟨h.version, h.language, h.text, h.tree, h.locator, h.content⟩

theorem Upsert.Made.soilIf {u : Upsert} {f : File} (h : u.Made f) (domain? : Option String) :
    u.Made (soilIf domain? f) := by
  rw [soilIf_eq]
  exact h.withStatus _

theorem made_fileOf {s : Submission} {content : Content} (parse : Bool)
    (h : Reader.outcome (p.attemptsOn s) = .ok content) :
    Upsert.Made ⟨s, p.readers⟩ (fileOf s parse content) := by
  obtain ⟨asked, -, hsettled⟩ := Reader.consult_settled (sourceOf s) p.readers
  refine ⟨rfl, rfl, rfl, rfl, rfl, asked, ?_⟩
  rwa [show Reader.outcome (Reader.consult (sourceOf s) p.readers) = .ok content from h]
    at hsettled

/-- Storing a file at another URI changes at most the status of this one. -/
theorem Holds.map_soilIf {file? : Option File} (hi : Holds us file?) (domain? : Option String) :
    Holds us (file?.map (soilIf domain?)) := by
  cases file? with
  | none => exact hi
  | some f =>
    obtain ⟨u, hu, hm⟩ := hi
    exact ⟨u, hu, hm.soilIf domain?⟩

/-- A submission that is not newer than the file at hand is one more, and not the first newest. -/
theorem Holds.concat_stale {s : Submission} {known f : File}
    (hi : Holds us (some known)) (hv : s.version ≤ known.version)
    (hf : ∃ status, f = { known with status := status }) :
    Holds (us ++ [⟨s, p.readers⟩]) (some f) := by
  obtain ⟨u, hu, hm⟩ := hi
  obtain ⟨status, rfl⟩ := hf
  have hle : s.version ≤ u.version := by rw [← hm.version]; exact hv
  exact ⟨u, hu.concat hle, hm.withStatus status⟩

theorem note_other {uri : String} {s : Submission} {parse : Bool} (h : s.uri ≠ uri) :
    note p.readers uri us ⟨p, .submit s parse⟩ = us := by
  simp [note, h]

theorem note_answered {s : Submission} {parse : Bool} {f : File}
    (h : (p.step (.submit s parse)).reply = .file f) :
    note p.readers s.uri us ⟨p, .submit s parse⟩ = us ++ [⟨s, p.readers⟩] := by
  simp [note, Step.answered_of_file (t := ⟨p, .submit s parse⟩) h]

theorem note_faulted {uri : String} {s : Submission} {parse : Bool} {fault : Fault}
    (h : (p.step (.submit s parse)).reply = .fault fault) :
    note p.readers uri us ⟨p, .submit s parse⟩ = us := by
  simp [note, Step.answered_of_fault (t := ⟨p, .submit s parse⟩) h]

theorem note_registers {uri : String} {a : Action} (h : a.registers = true) :
    note p.readers uri us ⟨p, a⟩ = us := by
  cases a with
  | submit | remove => cases h
  | extend | addReaders | subscribe => rfl

/-- One step keeps the invariant, whichever file it is about. -/
theorem Leads.holds {a : Action} {o : Outcome} {uri : String} (h : p.Leads a o)
    (ho : p.step a = o) (hi : Holds us (p.find? uri)) :
    Holds (note p.readers uri us ⟨p, a⟩) (o.project.find? uri) := by
  cases h with
  | @stale s parse known _ hk hv _ =>
    by_cases e : s.uri = uri
    · subst e
      rw [note_answered (by rw [ho])]
      rw [hk] at hi ⊢
      exact hi.concat_stale hv ⟨known.status, rfl⟩
    · rw [note_other e]
      exact hi
  | @promoted s known f _ hk hv _ hf =>
    show Holds _ ((put f p.files).find? _)
    have hu : f.uri = s.uri := by rw [hf]; exact (mem_of_find? hk).2
    rw [find?_put, hu]
    by_cases e : s.uri = uri
    · subst e
      rw [note_answered (by rw [ho]), if_pos rfl]
      rw [hk] at hi
      exact hi.concat_stale (Int.le_of_eq hv) ⟨.parsed, hf⟩
    · rw [note_other e, if_neg e]
      exact hi
  | faulted =>
    rw [note_faulted (by rw [ho])]
    exact hi
  | @stored s parse content f _ hn hc hf =>
    have hu : f.uri = s.uri := by rw [hf]; rfl
    rw [find?_store, hu]
    by_cases e : s.uri = uri
    · subst e
      rw [note_answered (by rw [ho]), if_pos rfl]
      refine ⟨⟨s, p.readers⟩, firstNewest_last ((newer_iff hi).mp hn), ?_⟩
      rw [hf]
      exact made_fileOf parse hc
    · rw [note_other e, if_neg e]
      exact hi.map_soilIf _
  | @absent gone _ hk =>
    show Holds (if gone = uri then [] else us) _
    by_cases e : gone = uri
    · subst e
      rw [if_pos rfl, hk]
      rfl
    · rw [if_neg e]
      exact hi
  | @removed gone f _ hk =>
    show Holds (if gone = uri then [] else us) ((p.files.filter (·.uri != gone)).find? _)
    rw [find?_remove]
    by_cases e : gone = uri
    · rw [if_pos e, if_pos e]
      rfl
    · rw [if_neg e, if_neg e]
      exact hi
  | registered ha hf _ _ =>
    rw [note_registers ha]
    unfold find? at hi ⊢
    rw [hf]
    exact hi

theorem holds_run (settings : Settings) (actions : List Action) (uri : String) :
    Holds (upserts settings uri actions) (((empty settings).run actions).find? uri) := by
  induction actions using List.reverseRecOn with
  | nil => rfl
  | append_singleton as a ih =>
    rw [upserts_concat, run_concat, ← readers_run]
    exact (step_leads _ a).holds rfl ih

/-! ## When the readers are asked -/

/-- A submission that is newer than the version at hand: the readers are asked along their chain,
and it is left without an answer only if one of them faults. -/
theorem step_settled {s : Submission} (hn : p.Newer s) (parse : Bool) :
    let t : Step := ⟨p, .submit s parse⟩
    ∃ asked result, t.outcome.attempts = asked.map (Reader.ask (sourceOf s)) ∧
      Reader.Settled (sourceOf s) p.readers asked result ∧
      (t.answered = false ↔ ∃ fault, result = .error fault) := by
  intro t
  obtain ⟨asked, hasked, hsettled⟩ := Reader.consult_settled (sourceOf s) p.readers
  obtain ⟨hattempts, hrest⟩ := (step_leads p (.submit s parse)).of_newer hn
  refine ⟨asked, Reader.outcome (p.attemptsOn s), hattempts.trans hasked, hsettled, ?_⟩
  cases hout : Reader.outcome (p.attemptsOn s) with
  | error fault =>
    rw [hout] at hrest
    exact iff_of_true (Step.answered_of_fault hrest.1) ⟨fault, rfl⟩
  | ok content =>
    rw [hout] at hrest
    simp [t, Step.answered_of_file (t := t) hrest.1]

theorem Leads.of_not_newer {s : Submission} {parse : Bool} {o : Outcome}
    (h : p.Leads (.submit s parse) o) (hn : ¬ p.Newer s) :
    o.attempts = [] ∧ ∃ f, o.reply = .file f := by
  cases h with
  | stale => exact ⟨rfl, _, rfl⟩
  | promoted => exact ⟨rfl, _, rfl⟩
  | faulted hnewer => exact absurd hnewer hn
  | stored hnewer => exact absurd hnewer hn
  | registered ha => cases ha

/-- Otherwise no reader is asked, and there is an answer. -/
theorem step_of_not_newer {s : Submission} (hn : ¬ p.Newer s) (parse : Bool) :
    let t : Step := ⟨p, .submit s parse⟩
    t.outcome.attempts = [] ∧ t.answered = true := by
  intro t
  obtain ⟨hattempts, f, hreply⟩ := (step_leads p (.submit s parse)).of_not_newer hn
  exact ⟨hattempts, Step.answered_of_file hreply⟩

theorem Leads.attempts_other {a : Action} {o : Outcome} (h : p.Leads a o)
    (ha : ∀ s parse, a ≠ .submit s parse) : o.attempts = [] := by
  cases h with
  | stale | promoted | faulted | stored => exact absurd rfl (ha _ _)
  | absent | removed | registered => rfl

/-- Without a removal, what was submitted stays submitted. -/
theorem mem_upsertsFrom {settings : Settings} {uri : String} {u : Upsert}
    {before after : List Action} (hr : .remove uri ∉ after) (hu : u ∈ us) :
    u ∈ upsertsFrom settings uri us before after := by
  induction after generalizing us before with
  | nil => exact hu
  | cons a after ih =>
    rw [List.mem_cons, not_or] at hr
    refine ih hr.2 ?_
    unfold note
    split
    · split
      · exact List.mem_append_left _ hu
      · exact hu
    · rename_i gone ha
      have hne : gone ≠ uri := by
        rintro rfl
        exact hr.1 ha.symm
      rwa [if_neg hne]
    · exact hu

/-- A submission that was answered is in effect until the file is removed. -/
theorem mem_upserts_of_answered {settings : Settings} {before between : List Action}
    {s : Submission} {parse : Bool}
    (ha : Step.answered ⟨(empty settings).run before, .submit s parse⟩ = true)
    (hr : .remove s.uri ∉ between) :
    ⟨s, chainAfter settings before⟩ ∈
      upserts settings s.uri (before ++ .submit s parse :: between) := by
  unfold upserts
  rw [upsertsFrom_append, List.nil_append, upsertsFrom]
  apply mem_upsertsFrom hr
  simp [note, ha]

/-- What a project stores at a URI, as a function of its history. With `us` the submissions of the
file that were answered since it was last removed:
- there is a file if and only if there is such a submission;
- it has the version, language, text, tree and content of the first that has the highest version,
  the content being what asking along the chain of that time leads to;
- a step that submits a version higher than all of them, for the file that it submits, asks the
  readers along the chain that the registrations before it give, and is left without an answer only
  if one of them faults;
- a step that submits any other version asks nobody and has an answer, and no other step asks;
- so a version that was answered for is not asked about again until the file is removed. -/
theorem first_newest_is_stored (settings : Settings) (actions : List Action) (uri : String) :
    let start := empty settings
    let us := upserts settings uri actions
    ((start.run actions).has uri = true ↔ us ≠ []) ∧
    (∀ f, (start.run actions).find? uri = some f → ∃ u, FirstNewest us u ∧ u.Made f) ∧
    (∀ before s parse after, actions = before ++ .submit s parse :: after →
      let t : Step := ⟨start.run before, .submit s parse⟩
      let newest := ∀ u ∈ upserts settings s.uri before, u.version < s.version
      (newest → ∃ asked result, t.outcome.attempts = asked.map (Reader.ask (sourceOf s)) ∧
        Reader.Settled (sourceOf s) (chainAfter settings before) asked result ∧
        (t.answered = false ↔ ∃ fault, result = .error fault)) ∧
      (¬ newest → t.outcome.attempts = [] ∧ t.answered = true)) ∧
    (∀ before a after, actions = before ++ a :: after → (∀ s parse, a ≠ .submit s parse) →
      ((start.run before).step a).attempts = []) ∧
    ∀ before s parse between s' parse' after,
      actions = before ++ .submit s parse :: (between ++ .submit s' parse' :: after) →
      s'.uri = s.uri → s'.version = s.version → .remove s.uri ∉ between →
      Step.answered ⟨start.run before, .submit s parse⟩ = true →
      ((start.run (before ++ .submit s parse :: between)).step
        (.submit s' parse')).attempts = [] := by
  intro start us
  have hi : Holds us ((start.run actions).find? uri) := holds_run settings actions uri
  refine ⟨?_, ?_, ?_, ?_, ?_⟩
  · have hhas : (start.run actions).has uri = ((start.run actions).find? uri).isSome :=
      find?_isSome.symm
    rw [hhas]
    cases hk : (start.run actions).find? uri with
    | none =>
      rw [hk] at hi
      have hnil : us = [] := hi
      simpa using hnil
    | some f =>
      rw [hk] at hi
      obtain ⟨u, hu, -⟩ := hi
      simpa using List.ne_nil_of_mem hu.mem
  · intro f hf
    rw [hf] at hi
    exact hi
  · intro before s parse after _ t newest
    have hnewer : (start.run before).Newer s ↔ newest := newer_iff (holds_run settings before s.uri)
    rw [← hnewer, ← readers_run]
    exact ⟨fun hn => step_settled hn parse, fun hn => step_of_not_newer hn parse⟩
  · intro before a after _ ha
    exact (step_leads _ a).attempts_other ha
  · intro before s parse between s' parse' after _ hu hv hr ha
    refine (step_of_not_newer (fun hn => ?_) parse').1
    have hall := (newer_iff (holds_run settings _ s'.uri)).mp hn
    rw [hu] at hall
    have hlt : s.version < s'.version := hall _ (mem_upserts_of_answered ha hr)
    omega

end Pddl.Project
