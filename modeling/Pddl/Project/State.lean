/-
  Pddl.Project.State — the files of a project, and what happens to them.

  A project holds one file for each URI, in the order in which the URIs first appeared, the
  readers and subscribers that were registered, and its settings. Actions change it one at a
  time (`Project.step`):
  - A submission is stale when the version at hand is not older. A stale submission changes
    nothing, except that a request to parse the very version at hand makes a file parsed that was
    new or dirty.
  - Any other submission is shown to the readers and stored in the place of the version before
    it, or at the end. When it is a new version of a known file and a domain, the parsed problems
    that refer to it become dirty. A fault of a reader leaves the project as it was.
  - Removing a file keeps the order of the others.
  Each change of a file is an event, and each event goes to all subscribers in the order in which
  they subscribed, before the next event. Readers are asked in the order: those of extensions,
  those added directly, those of the library.
-/

import Pddl.Project.File
import Pddl.Reader
import Pddl.Settings

namespace Pddl

inductive Change where
  | inserted
  | updated
  | removed
  deriving DecidableEq, Repr

def Change.name : Change → String
  | inserted => "inserted"
  | updated => "updated"
  | removed => "removed"

/-- A change of a file; the file is the one stored after the change, or before a removal. -/
structure Event where
  change : Change
  file : File

def Event.log (e : Event) : Log.Entry := .event e.change.name e.file.uri

/-- A version of a file as the host submits it. -/
structure Submission where
  uri : String
  language : Language
  version : Int
  text : List Char
  /-- The locator to use in place of the one of the text. -/
  locator? : Option Locator

structure Project where
  settings : Settings
  files : List File
  /-- How many extensions were added. -/
  extensions : Nat
  extensionReaders : List Reader
  directReaders : List Reader
  /-- The tags of the subscribers, in the order of their subscription. -/
  subscribers : List String

inductive Action where
  /-- Submits a version; `parse` asks for it to be parsed. -/
  | submit (s : Submission) (parse : Bool)
  | remove (uri : String)
  /-- Adds an extension, with its readers if it has any to bring. -/
  | extend (readers? : Option (List Reader))
  | addReaders (readers : List Reader)
  | subscribe (tag : String)

inductive Reply where
  | done
  | file (f : File)
  | fault (f : Fault)
  | removed (was : Bool)
  | extensions (count : Nat)

/-- What a step leads to: the project after it, the answer, and what was reported, asked and
delivered on the way. -/
structure Outcome where
  project : Project
  reply : Reply
  log : List Log.Entry := []
  attempts : List Attempt := []
  events : List Event := []

structure Delivery where
  tag : String
  event : Event

namespace Project

def empty (settings : Settings) : Project := ⟨settings, [], 0, [], [], []⟩

def readers (p : Project) : List Reader :=
  p.extensionReaders ++ p.directReaders ++
    if p.settings.builtinReaders then Reader.builtins p.settings.typeRoot else []

def find? (p : Project) (uri : String) : Option File := p.files.find? (·.uri == uri)

def has (p : Project) (uri : String) : Bool := p.files.any (·.uri == uri)

/-- Puts a file in the place of the one with its URI, or at the end. -/
def put (f : File) (files : List File) : List File :=
  if files.any (·.uri == f.uri) then files.map fun g => if g.uri == f.uri then f else g
  else files ++ [f]

/-! ## Submissions -/

/-- Whether a request to parse makes a file parsed. -/
def promotable (f : File) : Bool := f.status == .new || f.status == .dirty

/-- A submission that is not newer than the file at hand. -/
def submitStale (p : Project) (s : Submission) (parse : Bool) (known : File) : Outcome :=
  let entry : Log.Entry := .stale s.uri s.version known.version
  if parse && known.version == s.version && promotable known then
    let f := { known with status := .parsed }
    let e : Event := ⟨.updated, f⟩
    { project := { p with files := put f p.files }
      reply := .file f
      log := [entry, e.log]
      events := [e] }
  else { project := p, reply := .file known, log := [entry] }

def sourceOf (s : Submission) : Source where
  uri := s.uri
  version := s.version
  language := s.language
  tree := Tree.ofText s.text
  locator := s.locator?.getD (Locator.ofText s.text)

def fileOf (s : Submission) (parse : Bool) (content : Content) : File :=
  let source := sourceOf s
  { uri := s.uri
    version := s.version
    language := s.language
    status := if content.isUnknown then .unknown else if parse then .parsed else .new
    tree := source.tree
    locator := source.locator
    content := content }

/-- Whether a file becomes dirty when the domain with a name changes. -/
def dependsOn (domain : String) (f : File) : Bool := f.status == .parsed && f.refersTo domain

/-- The domain whose problems a new file makes dirty: the one it declares, if it takes the place
of another version. -/
def changedDomain? (p : Project) (f : File) : Option String :=
  if p.settings.dirtyDependents && p.has f.uri then f.domainName? else none

def soil (domain : String) (f : File) : File :=
  if dependsOn domain f then { f with status := .dirty } else f

def soilEvents (domain : String) (files : List File) : List Event :=
  (files.filter (dependsOn domain)).map fun f => ⟨.updated, soil domain f⟩

/-- The reports of the files that become dirty, each followed by its event. -/
def soilLog (domain : String) (files : List File) : List Log.Entry :=
  (soilEvents domain files).flatMap fun e => [.outdated e.file.uri domain, e.log]

def store (p : Project) (f : File) : Outcome :=
  let e : Event := ⟨.inserted, f⟩
  let storing : Log.Entry := .storing f.uri f.version f.content.name f.status.name
  let files := put f p.files
  match p.changedDomain? f with
  | none =>
    { project := { p with files := files }
      reply := .file f
      log := [storing, e.log]
      events := [e] }
  | some domain =>
    { project := { p with files := files.map (soil domain) }
      reply := .file f
      log := [storing, e.log] ++ soilLog domain files
      events := e :: soilEvents domain files }

/-- A submission that is newer than the file at hand, or the first of its file. -/
def submitNew (p : Project) (s : Submission) (parse : Bool) : Outcome :=
  let source := sourceOf s
  let attempts := Reader.consult source p.readers
  let strays := source.tree.strays.map Log.Entry.stray
  match Reader.outcome attempts with
  | .error fault =>
    { project := p
      reply := .fault fault
      log := strays ++ attempts.flatMap (Attempt.log s.uri)
      attempts := attempts }
  | .ok content =>
    let o := p.store (fileOf s parse content)
    { o with log := strays ++ Reader.log s.uri attempts ++ o.log, attempts := attempts }

def submit (p : Project) (s : Submission) (parse : Bool) : Outcome :=
  match p.find? s.uri with
  | some known =>
    if s.version ≤ known.version then p.submitStale s parse known else p.submitNew s parse
  | none => p.submitNew s parse

/-! ## Other actions -/

def remove (p : Project) (uri : String) : Outcome :=
  match p.find? uri with
  | none => { project := p, reply := .removed false }
  | some f =>
    let e : Event := ⟨.removed, f⟩
    { project := { p with files := p.files.filter (·.uri != uri) }
      reply := .removed true
      log := [e.log]
      events := [e] }

def extend (p : Project) (readers? : Option (List Reader)) : Outcome :=
  let count := p.extensions + 1
  match readers? with
  | none => { project := { p with extensions := count }, reply := .extensions count }
  | some readers =>
    { project := { p with
        extensions := count
        extensionReaders := p.extensionReaders ++ readers }
      reply := .extensions count
      log := [.registering readers.length] }

def step (p : Project) : Action → Outcome
  | .submit s parse => p.submit s parse
  | .remove uri => p.remove uri
  | .extend readers? => p.extend readers?
  | .addReaders readers =>
    { project := { p with directReaders := p.directReaders ++ readers }, reply := .done }
  | .subscribe tag =>
    { project := { p with subscribers := p.subscribers ++ [tag] }, reply := .done }

def run (p : Project) (actions : List Action) : Project :=
  actions.foldl (fun p a => (p.step a).project) p

/-- What the subscribers of a project receive: each event goes to all of them before the next. -/
def deliveries (p : Project) (events : List Event) : List Delivery :=
  events.flatMap fun e => p.subscribers.map fun tag => ⟨tag, e⟩

end Project

end Pddl
