/-
  Pddl.Proofs.Project.Feed — the events of a project tell what becomes of its files.

  A subscriber that keeps the list of files it saw when it subscribed, and follows each event that
  is delivered to it (`follow`), always has the list of files of the project, in its order. An
  event is never idle (`Genuine`): what it says was not so before.
  - `Tells` joins the two: the events lead from one list of files to another, each of them genuine
    where it comes;
  - `tells_soil`: the events of the files that a domain makes dirty, one by one;
  - `Leads.tells`, `tells_run`: every step and every run tells its events so;
  - `received_eq`: a subscriber receives all events of a step from the deliveries meant for it;
  - `feed_determines_files`: the statement for a subscriber that joins during a run.
-/

import Pddl.Proofs.Project.Step

namespace Pddl.Project

def replaced (f : File) (fs : List File) : List File :=
  fs.map fun g => if g.uri = f.uri then f else g

/-- What a subscriber makes of its list of files when an event arrives. -/
def follow (fs : List File) (e : Event) : List File :=
  match e.change with
  | .inserted => if ∃ g ∈ fs, g.uri = e.file.uri then replaced e.file fs else fs ++ [e.file]
  | .updated => replaced e.file fs
  | .removed => fs.filter (·.uri != e.file.uri)

def replay (fs : List File) (es : List Event) : List File := es.foldl follow fs

/-- An event says what was not so before, when the files were `fs`. -/
def Genuine (fs : List File) (e : Event) : Prop :=
  match e.change with
  | .inserted => ∀ g ∈ fs, g.uri = e.file.uri → g.version < e.file.version
  | .updated => ∃ g ∈ fs, g.status ≠ e.file.status ∧ e.file = { g with status := e.file.status }
  | .removed => e.file ∈ fs

/-- Events lead from one list of files to another, and each is genuine. -/
inductive Tells : List File → List Event → List File → Prop
  | nil (fs : List File) : Tells fs [] fs
  | cons {fs gs : List File} {e : Event} {es : List Event} :
      Genuine fs e → Tells (follow fs e) es gs → Tells fs (e :: es) gs

theorem Tells.append {fs gs hs : List File} {es ds : List Event} (h : Tells fs es gs)
    (h' : Tells gs ds hs) : Tells fs (es ++ ds) hs := by
  induction h with
  | nil => exact h'
  | cons hg _ ih => exact .cons hg (ih h')

theorem Tells.replay_eq {fs gs : List File} {es : List Event} (h : Tells fs es gs) :
    replay fs es = gs := by
  induction h with
  | nil => rfl
  | cons _ _ ih => exact ih

theorem Tells.genuine {fs gs : List File} {earlier later : List Event} {e : Event}
    (h : Tells fs (earlier ++ e :: later) gs) : Genuine (replay fs earlier) e := by
  induction earlier generalizing fs with
  | nil =>
    cases h with
    | cons hg _ => exact hg
  | cons d earlier ih =>
    cases h with
    | cons _ hr => exact ih hr

/-! ## One step -/

theorem put_eq_follow (f : File) (fs : List File) : put f fs = follow fs ⟨.inserted, f⟩ := by
  simp only [put, follow, replaced, List.any_eq_true, beq_iff_eq]

theorem put_eq_replaced {f : File} {fs : List File} (h : ∃ g ∈ fs, g.uri = f.uri) :
    put f fs = replaced f fs := by
  rw [put_eq_follow]
  exact if_pos h

theorem replaced_of_absent {f : File} {fs : List File} (h : ∀ g ∈ fs, g.uri ≠ f.uri) :
    replaced f fs = fs := by
  have hid : replaced f fs = fs.map id := List.map_congr_left fun g hg => if_neg (h g hg)
  rw [hid, List.map_id]

/-- Among files with distinct URIs one is replaced in its place, and no other. -/
theorem replaced_middle {done rest : List File} {f g : File} (hd : Distinct (done ++ g :: rest))
    (hu : f.uri = g.uri) : replaced f (done ++ g :: rest) = done ++ f :: rest := by
  unfold Distinct at hd
  rw [List.map_append, List.map_cons, List.nodup_middle, List.nodup_cons] at hd
  have hother : ∀ x ∈ done ++ rest, x.uri ≠ f.uri := by
    intro x hx e
    refine hd.1 ?_
    rw [← List.map_append, ← hu, ← e]
    exact List.mem_map_of_mem hx
  have hdone : replaced f done = done :=
    replaced_of_absent fun x hx => hother x (List.mem_append_left _ hx)
  have hrest : replaced f rest = rest :=
    replaced_of_absent fun x hx => hother x (List.mem_append_right _ hx)
  calc replaced f (done ++ g :: rest)
      = replaced f done ++ (if g.uri = f.uri then f else g) :: replaced f rest := by simp [replaced]
    _ = done ++ f :: rest := by rw [hdone, hrest, if_pos hu.symm]

theorem genuine_soil {domain : String} {fs : List File} {g : File} (hg : g ∈ fs)
    (h : dependsOn domain g = true) : Genuine fs ⟨.updated, soil domain g⟩ := by
  have hs : soil domain g = { g with status := .dirty } := if_pos h
  have hp : g.status = .parsed := by
    unfold dependsOn at h
    rw [Bool.and_eq_true, beq_iff_eq] at h
    exact h.1
  refine ⟨g, hg, ?_, ?_⟩
  · rw [hs, hp]
    exact fun e => by cases e
  · rw [hs]

theorem soil_uri (domain : String) (f : File) : (soil domain f).uri = f.uri :=
  soilIf_uri (some domain) f

/-- The files that become dirty are told one after the other. The induction is on those that are
still to come; `done` are those that were passed, dirty or not. -/
theorem tells_soil (domain : String) {done rest : List File} (hd : Distinct (done ++ rest)) :
    Tells (done ++ rest) (soilEvents domain rest) (done ++ rest.map (soil domain)) := by
  induction rest generalizing done with
  | nil => exact .nil _
  | cons g rest ih =>
    have hd' : Distinct ((done ++ [soil domain g]) ++ rest) := by
      simpa [Distinct, soil_uri] using hd
    have htail := ih hd'
    rw [List.append_assoc, List.append_assoc, List.singleton_append, List.singleton_append] at htail
    rw [List.map_cons]
    by_cases h : dependsOn domain g = true
    · have hev : soilEvents domain (g :: rest) =
          ⟨.updated, soil domain g⟩ :: soilEvents domain rest := by simp [soilEvents, h]
      have hfollow : follow (done ++ g :: rest) ⟨.updated, soil domain g⟩ =
          done ++ soil domain g :: rest := replaced_middle hd (soil_uri domain g)
      rw [hev]
      refine .cons (genuine_soil (by simp) h) ?_
      rw [hfollow]
      exact htail
    · have hev : soilEvents domain (g :: rest) = soilEvents domain rest := by simp [soilEvents, h]
      have hs : soil domain g = g := if_neg h
      rw [hev]
      rw [hs] at htail ⊢
      exact htail

theorem tells_store {p : Project} {f : File} (hd : Distinct p.files)
    (hg : Genuine p.files ⟨.inserted, f⟩) :
    Tells p.files (p.store f).events (p.store f).project.files := by
  rw [store_files]
  cases hc : p.changedDomain? f with
  | none =>
    have hev : (p.store f).events = [⟨.inserted, f⟩] := by
      unfold store
      rw [hc]
    rw [hev]
    refine .cons hg ?_
    rw [← put_eq_follow]
    have hid : (put f p.files).map (soilIf none) = put f p.files := List.map_id _
    rw [hid]
    exact .nil _
  | some domain =>
    have hev : (p.store f).events = ⟨.inserted, f⟩ :: soilEvents domain (put f p.files) := by
      unfold store
      rw [hc]
    rw [hev]
    refine .cons hg ?_
    rw [← put_eq_follow]
    have hput : Distinct ([] ++ put f p.files) := distinct_put f hd
    exact tells_soil domain hput

/-- A version that is newer than the one at hand is new to a subscriber. -/
theorem genuine_inserted {p : Project} {s : Submission} {parse : Bool} {content : Content}
    (hd : Distinct p.files) (hn : p.Newer s) :
    Genuine p.files ⟨.inserted, fileOf s parse content⟩ := by
  intro g hg e
  have hfind : p.find? s.uri = some g := by
    have hu : g.uri = s.uri := e
    rw [← hu]
    exact find?_of_mem hd hg
  exact hn g hfind

theorem tells_promoted {p : Project} {known f : File} (hk : known ∈ p.files)
    (hp : promotable known = true) (hf : f = { known with status := .parsed }) :
    Tells p.files [⟨.updated, f⟩] (put f p.files) := by
  have hin : ∃ g ∈ p.files, g.uri = f.uri := ⟨known, hk, by rw [hf]⟩
  refine .cons ⟨known, hk, ?_, ?_⟩ ?_
  · intro e
    have : known.status = .parsed := by rw [e, hf]
    simp [promotable, this] at hp
  · rw [hf]
  · rw [put_eq_replaced hin]
    exact .nil _

theorem Leads.tells {p : Project} {a : Action} {o : Outcome} (h : p.Leads a o)
    (hd : Distinct p.files) : Tells p.files o.events o.project.files := by
  cases h with
  | stale | faulted | absent => exact .nil _
  | promoted hk _ hp hf => exact tells_promoted (mem_of_find? hk).1 hp hf
  | stored hn _ hf =>
    rw [hf]
    exact tells_store hd (genuine_inserted hd hn)
  | @removed uri f _ hk =>
    obtain ⟨hmem, hu⟩ := mem_of_find? hk
    refine .cons hmem ?_
    have hfollow : follow p.files ⟨.removed, f⟩ = p.files.filter (·.uri != uri) := by rw [← hu]; rfl
    rw [hfollow]
    exact .nil _
  | registered _ hf =>
    simp only [hf]
    exact .nil _

def emitted (ts : List Step) : List Event := ts.flatMap (·.outcome.events)

theorem tells_run {p : Project} (hd : Distinct p.files) (as : List Action) :
    Tells p.files (emitted (p.steps as)) (p.run as).files := by
  induction as generalizing p with
  | nil => exact .nil _
  | cons a as ih =>
    have hl := step_leads p a
    exact (hl.tells hd).append (ih (hl.distinct hd))

/-! ## Deliveries -/

theorem deliveries_cons (p : Project) (e : Event) (es : List Event) :
    p.deliveries (e :: es) = p.subscribers.map (⟨·, e⟩) ++ p.deliveries es := rfl

theorem length_deliveries (p : Project) (es : List Event) :
    (p.deliveries es).length = es.length * p.subscribers.length := by
  induction es with
  | nil => simp [deliveries]
  | cons e es ih =>
    rw [deliveries_cons, List.length_append, List.length_map, ih, List.length_cons, Nat.succ_mul]
    omega

/-- Each event goes to all subscribers in their order, and only then the next one does. -/
theorem deliveries_at {p : Project} {es : List Event} {k j : Nat} {e : Event} {tag : String}
    (he : es[k]? = some e) (ht : p.subscribers[j]? = some tag) :
    (p.deliveries es)[k * p.subscribers.length + j]? = some ⟨tag, e⟩ := by
  have hj : j < p.subscribers.length := (List.getElem?_eq_some_iff.mp ht).1
  induction es generalizing k with
  | nil => cases he
  | cons d es ih =>
    rw [deliveries_cons]
    cases k with
    | zero =>
      obtain rfl : d = e := by simpa using he
      rw [Nat.zero_mul, Nat.zero_add, List.getElem?_append_left (by simpa using hj)]
      simp [ht]
    | succ k =>
      rw [List.getElem?_cons_succ] at he
      have hplace : (k + 1) * p.subscribers.length + j - p.subscribers.length =
          k * p.subscribers.length + j := by
        rw [Nat.succ_mul]
        omega
      rw [List.getElem?_append_right (by rw [List.length_map, Nat.succ_mul]; omega),
        List.length_map, hplace]
      exact ih he

def Step.deliveries (t : Step) : List Delivery := t.before.deliveries t.outcome.events

/-- The events that the subscriber at place `i` receives in a step: of the deliveries, which go
round the subscribers, those of its turn. -/
def Step.received (i : Nat) (t : Step) : List Event :=
  (List.range t.outcome.events.length).filterMap fun k =>
    (t.deliveries[k * t.before.subscribers.length + i]?).map (·.event)

def inbox (i : Nat) (ts : List Step) : List Event := ts.flatMap (Step.received i)

theorem filterMap_getElem?_range {α : Type} (l : List α) :
    (List.range l.length).filterMap (l[·]?) = l := by
  induction l with
  | nil => rfl
  | cons a l ih =>
    rw [List.length_cons, List.range_succ_eq_map, List.filterMap_cons, List.filterMap_map]
    simpa [Function.comp_def] using ih

/-- Every subscriber receives every event of a step. -/
theorem received_eq {t : Step} {i : Nat} {tag : String} (h : t.before.subscribers[i]? = some tag) :
    t.received i = t.outcome.events := by
  have hturn : ∀ k ∈ List.range t.outcome.events.length,
      (t.deliveries[k * t.before.subscribers.length + i]?).map (·.event) =
        t.outcome.events[k]? := by
    intro k hk
    have he := List.getElem?_eq_getElem (List.mem_range.mp hk)
    rw [Step.deliveries, deliveries_at he h, he]
    rfl
  rw [Step.received, List.filterMap_congr hturn, filterMap_getElem?_range]

theorem inbox_eq {i : Nat} {ts : List Step} {tag : String}
    (h : ∀ t ∈ ts, t.before.subscribers[i]? = some tag) : inbox i ts = emitted ts :=
  List.flatMap_congr fun t ht => received_eq (h t ht)

/-- A subscriber keeps its place from the step after which it joined. -/
theorem subscribed_at {p : Project} {tag : String} {as : List Action} {t : Step}
    (ht : t ∈ (p.step (.subscribe tag)).project.steps as) :
    t.before.subscribers[p.subscribers.length]? = some tag := by
  obtain ⟨before, after, -, hb⟩ := mem_steps ht
  obtain ⟨later, hl⟩ := subscribers_run (p.step (.subscribe tag)).project before
  rw [hb, ← hl]
  simp [step]

/-- A stale submission that changes no file has no event. -/
theorem Leads.events_stale {p : Project} {s : Submission} {parse : Bool} {o : Outcome}
    {known : File} (h : p.Leads (.submit s parse) o) (hk : p.find? s.uri = some known)
    (hv : s.version ≤ known.version) (hfiles : o.project.find? s.uri = some known) :
    o.events = [] := by
  cases h with
  | stale | faulted | registered => rfl
  | @promoted _ g f _ hk' _ hp hf =>
    rw [hk] at hk'
    cases hk'
    have hu : f.uri = s.uri := by rw [hf]; exact (mem_of_find? hk).2
    have hput : (put f p.files).find? (·.uri == s.uri) = some known := hfiles
    rw [find?_put, if_pos hu, hf] at hput
    have hs : known.status = .parsed := by
      injection hput with e
      rw [← e]
    simp [promotable, hs] at hp
  | stored hn => exact absurd hn (not_newer hk hv)

/-- What a subscriber receives determines the files. For a subscriber that joins after the actions
`before`, and any actions after that:
- following the events it received, from the files it found, gives the files of the project;
- each of these events was genuine when it came;
- a stale submission that promotes nothing delivers nothing;
- in every step the subscriber has its place, and event number `k` comes to the subscriber at
  place `j` after it came to those at earlier places, and after every earlier event came to all. -/
theorem feed_determines_files (settings : Settings) (before : List Action) (tag : String)
    (after : List Action) :
    let found := (empty settings).run before
    let i := found.subscribers.length
    let ts := (found.step (.subscribe tag)).project.steps after
    replay found.files (inbox i ts) =
      ((empty settings).run (before ++ .subscribe tag :: after)).files ∧
    (∀ earlier e later, inbox i ts = earlier ++ e :: later →
      Genuine (replay found.files earlier) e) ∧
    (∀ t ∈ ts, ∀ s parse known, t.action = .submit s parse → t.before.find? s.uri = some known →
      s.version ≤ known.version → t.outcome.project.find? s.uri = some known →
      t.deliveries = []) ∧
    ∀ t ∈ ts, t.before.subscribers[i]? = some tag ∧
      t.deliveries.length = t.outcome.events.length * t.before.subscribers.length ∧
      ∀ k e j name, t.outcome.events[k]? = some e → t.before.subscribers[j]? = some name →
        t.deliveries[k * t.before.subscribers.length + j]? = some ⟨name, e⟩ := by
  intro found i ts
  have hd : Distinct found.files := distinct_run (distinct_empty settings) before
  have hplace : ∀ t ∈ ts, t.before.subscribers[i]? = some tag := fun t ht => subscribed_at ht
  have htells : Tells found.files (inbox i ts)
      ((empty settings).run (before ++ .subscribe tag :: after)).files := by
    rw [inbox_eq hplace, run_append, run_cons]
    -- subscribing itself changes no file
    have hjoined : Distinct (found.step (.subscribe tag)).project.files := hd
    exact tells_run hjoined after
  refine ⟨htells.replay_eq, ?_, ?_, ?_⟩
  · intro earlier e later hsplit
    rw [hsplit] at htells
    exact htells.genuine
  · intro t _ s parse known ha hk hv hfile
    have hl := step_leads t.before t.action
    rw [ha] at hl
    have hev : t.outcome.events = [] := by
      rw [Step.outcome, ha] at hfile ⊢
      exact hl.events_stale hk hv hfile
    rw [Step.deliveries, hev]
    rfl
  · intro t ht
    exact ⟨hplace t ht, length_deliveries _ _, fun k e j name he hn => deliveries_at he hn⟩

end Pddl.Project
