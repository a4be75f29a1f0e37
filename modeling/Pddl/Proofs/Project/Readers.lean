/-
  Pddl.Proofs.Project.Readers — which readers are asked about a submission, and who decides.

  Readers are registered in two ways, with an extension or directly, at any time between other
  actions. What is asked about a submission is a function of these registrations (`chainAfter`):
  the readers of all extensions, then all direct ones, each in the order of their registration,
  then those of the library unless they are switched off.
  - `readers_run`: a project keeps that chain along every run;
  - `consult_settled`: asking goes along a chain up to the first reader that recognizes the source
    or faults on it, and up to the end if there is none (`Settled`);
  - `first_to_recognize_decides`: the two together, and what becomes of the submission.
-/

import Pddl.Proofs.Project.Step

namespace Pddl

def Action.extensionReaders : Action → List Reader
  | .extend (some readers) => readers
  | _ => []

def Action.directReaders : Action → List Reader
  | .addReaders readers => readers
  | _ => []

/-! ## Asking along a chain -/

namespace Reader

/-- A reader lets a source pass: it declines it, or it fails on it. -/
def Passes (s : Source) (r : Reader) : Prop :=
  r.read s = .ok .declined ∨ ∃ error, r.read s = .ok (.failed error)

/-- `asked` are the readers of a chain that are asked about a source, with the result: all of them
if all let it pass, and otherwise those up to the first that does not. -/
inductive Settled (s : Source) (chain asked : List Reader) : Except Fault Content → Prop
  | nobody : asked = chain → (∀ r ∈ chain, r.Passes s) → Settled s chain asked (.ok .unknown)
  | recognized (passed rest : List Reader) {r : Reader} {content : Content} :
      chain = passed ++ r :: rest → asked = passed ++ [r] → (∀ q ∈ passed, q.Passes s) →
      r.read s = .ok (.recognized content) → Settled s chain asked (.ok content)
  | faulted (passed rest : List Reader) {r : Reader} {fault : Fault} :
      chain = passed ++ r :: rest → asked = passed ++ [r] → (∀ q ∈ passed, q.Passes s) →
      r.read s = .error fault → Settled s chain asked (.error fault)

variable {s : Source} {r : Reader} {rs : List Reader}

theorem consult_cons_of_settles (h : (r.ask s).settles = true) :
    consult s (r :: rs) = [r.ask s] := by
  simp [consult, h]

theorem consult_cons_of_passes (h : r.Passes s) :
    consult s (r :: rs) = r.ask s :: consult s rs := by
  rcases h with h | ⟨error, h⟩ <;> simp [consult, ask, Attempt.settles, h]

theorem outcome_cons_of_passes (h : r.Passes s) (attempts : List Attempt) :
    outcome (r.ask s :: attempts) = outcome attempts := by
  rcases h with h | ⟨error, h⟩ <;> simp [outcome, ask, Attempt.settles, h]

/-- A reader that lets the source pass is asked, and changes nothing. -/
theorem Settled.cons {chain asked : List Reader} {result : Except Fault Content}
    (hp : r.Passes s) (h : Settled s chain asked result) :
    Settled s (r :: chain) (r :: asked) result := by
  cases h with
  | nobody ha hall =>
    refine .nobody (by rw [ha]) fun q hq => ?_
    rcases List.mem_cons.mp hq with rfl | hq
    · exact hp
    · exact hall q hq
  | recognized passed rest hc ha hall hq =>
    refine .recognized (r :: passed) rest ?_ ?_ ?_ hq
    · rw [hc, List.cons_append]
    · rw [ha, List.cons_append]
    · exact List.forall_mem_cons.mpr ⟨hp, hall⟩
  | faulted passed rest hc ha hall hq =>
    refine .faulted (r :: passed) rest ?_ ?_ ?_ hq
    · rw [hc, List.cons_append]
    · rw [ha, List.cons_append]
    · exact List.forall_mem_cons.mpr ⟨hp, hall⟩

/-- A chain is asked as `Settled` says, each reader once and in order. -/
theorem consult_settled (s : Source) (chain : List Reader) :
    ∃ asked, consult s chain = asked.map (ask s) ∧
      Settled s chain asked (outcome (consult s chain)) := by
  induction chain with
  | nil => exact ⟨[], rfl, .nobody rfl fun r hr => by cases hr⟩
  | cons r rs ih =>
    cases hr : r.read s with
    | error fault =>
      have hs : (r.ask s).settles = true := by simp [ask, Attempt.settles, hr]
      rw [consult_cons_of_settles hs]
      have ho : outcome [r.ask s] = .error fault := by simp [outcome, ask, Attempt.settles, hr]
      rw [ho]
      exact ⟨[r], rfl, .faulted [] rs rfl rfl (fun q hq => by cases hq) hr⟩
    | ok verdict =>
      cases verdict with
      | recognized content =>
        have hs : (r.ask s).settles = true := by simp [ask, Attempt.settles, hr]
        rw [consult_cons_of_settles hs]
        have ho : outcome [r.ask s] = .ok content := by simp [outcome, ask, Attempt.settles, hr]
        rw [ho]
        exact ⟨[r], rfl, .recognized [] rs rfl rfl (fun q hq => by cases hq) hr⟩
      | declined | failed =>
        have hp : r.Passes s := by simp [Passes, hr]
        obtain ⟨asked, hc, hsettled⟩ := ih
        rw [consult_cons_of_passes hp, outcome_cons_of_passes hp]
        exact ⟨r :: asked, by rw [hc, List.map_cons], hsettled.cons hp⟩

end Reader

/-! ## The chain of a project -/

namespace Project

def chainAfter (settings : Settings) (actions : List Action) : List Reader :=
  actions.flatMap Action.extensionReaders ++ actions.flatMap Action.directReaders ++
    if settings.builtinReaders then [Reader.domain settings.typeRoot, Reader.problem, Reader.plan]
    else []

theorem store_readers (p : Project) (f : File) :
    (p.store f).project.extensionReaders = p.extensionReaders ∧
      (p.store f).project.directReaders = p.directReaders := by
  unfold store
  split <;> exact ⟨rfl, rfl⟩

/-- An action on files registers no reader. -/
theorem Leads.readers_kept {p : Project} {a : Action} {o : Outcome} (h : p.Leads a o)
    (ha : a.registers = false) :
    o.project.extensionReaders = p.extensionReaders ∧
      o.project.directReaders = p.directReaders := by
  cases h with
  | stale | promoted | faulted | absent | removed => exact ⟨rfl, rfl⟩
  | stored => exact store_readers p _
  | registered hr =>
    rw [ha] at hr
    cases hr

theorem step_readers (p : Project) (a : Action) :
    (p.step a).project.extensionReaders = p.extensionReaders ++ a.extensionReaders ∧
      (p.step a).project.directReaders = p.directReaders ++ a.directReaders := by
  cases a with
  | submit | remove =>
    simpa [Action.extensionReaders, Action.directReaders] using (step_leads p _).readers_kept rfl
  | extend readers? => cases readers? <;>
      simp [step, extend, Action.extensionReaders, Action.directReaders]
  | addReaders | subscribe => simp [step, Action.extensionReaders, Action.directReaders]

theorem registered_run (p : Project) (actions : List Action) :
    (p.run actions).extensionReaders =
        p.extensionReaders ++ actions.flatMap Action.extensionReaders ∧
      (p.run actions).directReaders =
        p.directReaders ++ actions.flatMap Action.directReaders := by
  induction actions generalizing p with
  | nil => simp [run]
  | cons a actions ih =>
    obtain ⟨he, hd⟩ := ih (p.step a).project
    obtain ⟨hea, hda⟩ := step_readers p a
    rw [run_cons, he, hd, hea, hda]
    simp [List.flatMap_cons]

/-- The readers of a project depend on the registrations alone, and not on how those of the two
kinds were mixed. -/
theorem readers_run (settings : Settings) (actions : List Action) :
    ((empty settings).run actions).readers = chainAfter settings actions := by
  obtain ⟨he, hd⟩ := registered_run (empty settings) actions
  unfold readers chainAfter
  rw [he, hd, settings_run]
  rfl

/-- What a newer submission leads to is settled by its attempts. -/
theorem Leads.of_newer {p : Project} {s : Submission} {parse : Bool} {o : Outcome}
    (h : p.Leads (.submit s parse) o) (hn : p.Newer s) :
    o.attempts = p.attemptsOn s ∧
      match Reader.outcome (p.attemptsOn s) with
      | .ok content => o.reply = .file (fileOf s parse content) ∧
          o.project = (p.store (fileOf s parse content)).project
      | .error fault => o.reply = .fault fault ∧ o.project = p := by
  cases h with
  | stale hk hv => exact absurd hn (not_newer hk hv)
  | promoted hk hv => exact absurd hn (not_newer hk (Int.le_of_eq hv))
  | faulted _ ho =>
    rw [ho]
    exact ⟨rfl, rfl, rfl⟩
  | stored _ ho hf =>
    rw [ho, hf]
    exact ⟨rfl, rfl, rfl⟩
  | registered ha => cases ha

/-- A submission that is newer than the file at hand. Along the chain that the registrations before
it give, the readers are asked, each once and in order, up to the first that recognizes the source
(`Reader.Settled`); declining and failing count the same. What that reader recognized is the
content of the file stored, and it is unknown if all were asked in vain. Only a fault of a reader
leaves the project as it was. -/
theorem first_to_recognize_decides (settings : Settings) (before : List Action) (s : Submission)
    (parse : Bool) (hn : ((empty settings).run before).Newer s) :
    let p := (empty settings).run before
    let o := p.step (.submit s parse)
    ∃ asked result, o.attempts = asked.map (Reader.ask (sourceOf s)) ∧
      Reader.Settled (sourceOf s) (chainAfter settings before) asked result ∧
      match result with
      | .ok content => ∃ f, o.reply = .file f ∧ o.project.find? s.uri = some f ∧
          f.content = content
      | .error fault => o.reply = .fault fault ∧ o.project = p := by
  intro p o
  obtain ⟨asked, hasked, hsettled⟩ := Reader.consult_settled (sourceOf s) p.readers
  obtain ⟨hattempts, hrest⟩ := (step_leads p (.submit s parse)).of_newer hn
  refine ⟨asked, Reader.outcome (p.attemptsOn s), hattempts.trans hasked, ?_, ?_⟩
  · rw [← readers_run]
    exact hsettled
  · cases hout : Reader.outcome (p.attemptsOn s) with
    | error fault =>
      rw [hout] at hrest
      exact hrest
    | ok content =>
      rw [hout] at hrest
      obtain ⟨hreply, hproject⟩ := hrest
      have hu : (fileOf s parse content).uri = s.uri := rfl
      refine ⟨fileOf s parse content, hreply, ?_, rfl⟩
      rw [hproject, find?_store, if_pos hu]

/-- Readers of both kinds, registered in turn: one that declines, one that fails, one that
recognizes everything, and an extension without readers. -/
def mixedReaders : List Action :=
  [.addReaders [Reader.never "mild"],
   .extend (some [Reader.failing "broken" "broken parser: lost", Reader.never "shy"]),
   .addReaders [Reader.always "greedy" (.custom ⟨"Marker", some "greedy"⟩)],
   .extend none]

/-- The readers of the extension are asked first although they came second, and those of the
library not at all. -/
theorem the_direct_reader_decides :
    let s : Submission := ⟨"file:///w/d.pddl", .pddl, 1, "(define (domain d))".toList, none⟩
    let o := ((empty {}).run mixedReaders).step (.submit s false)
    ((empty {}).run mixedReaders).Newer s ∧
      o.attempts.map (·.reader.name) = ["broken", "shy", "mild", "greedy"] ∧
      ∃ asked result, o.attempts = asked.map (Reader.ask (sourceOf s)) ∧
        Reader.Settled (sourceOf s) (chainAfter {} mixedReaders) asked result ∧
        match result with
        | .ok content => ∃ f, o.reply = .file f ∧ o.project.find? s.uri = some f ∧
            f.content = content
        | .error fault => o.reply = .fault fault ∧
            o.project = (empty {}).run mixedReaders := by
  intro s o
  have hn : ((empty {}).run mixedReaders).Newer s := fun known hk => by cases hk
  exact ⟨hn, by decide +kernel, first_to_recognize_decides {} mixedReaders s false hn⟩

end Project

end Pddl
