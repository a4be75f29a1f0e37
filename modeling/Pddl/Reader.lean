/-
  Pddl.Reader — who recognizes files.

  A reader looks at a source and recognizes it as some content, declines it, or fails with an
  error; on a source whose locator refuses it may also fault. Readers are asked one after the
  other (`consult`): the first that recognizes the source, or faults, is the last to be asked,
  and a failure counts as declining. When all were asked in vain the content is unknown
  (`outcome`).
-/

import Pddl.Content
import Pddl.Log

namespace Pddl

inductive Verdict where
  | recognized (content : Content)
  | declined
  | failed (error : String)

structure Reader where
  name : String
  /-- Whether the reader comes with the library. -/
  builtin : Bool
  read : Source → Except Fault Verdict

structure Attempt where
  reader : Reader
  verdict : Except Fault Verdict

namespace Attempt

/-- Whether no further reader is asked. -/
def settles (a : Attempt) : Bool :=
  match a.verdict with
  | .ok (.recognized _) => true
  | .ok .declined => false
  | .ok (.failed _) => false
  | .error _ => true

def log (uri : String) (a : Attempt) : List Log.Entry :=
  match a.verdict with
  | .ok (.recognized c) => [.recognized c.name a.reader.name]
  | .ok .declined => [.declined a.reader.name]
  | .ok (.failed error) => [.failed a.reader.name uri error]
  | .error _ => []

end Attempt

namespace Reader

def ask (s : Source) (r : Reader) : Attempt := ⟨r, r.read s⟩

/-- Asks readers in turn until one settles what the source is. -/
def consult (s : Source) : List Reader → List Attempt
  | [] => []
  | r :: rs =>
    let a := r.ask s
    if a.settles then [a] else a :: consult s rs

/-- The content that attempts lead to. -/
def outcome (attempts : List Attempt) : Except Fault Content :=
  match attempts.find? Attempt.settles with
  | some ⟨_, .ok (.recognized c)⟩ => .ok c
  | some ⟨_, .error f⟩ => .error f
  | _ => .ok .unknown

def log (uri : String) (attempts : List Attempt) : List Log.Entry :=
  attempts.flatMap (Attempt.log uri) ++
    if attempts.any Attempt.settles then [] else [.unrecognized uri]

/-! ## The readers of the library -/

def verdictOf {α : Type} (kind : α → Content) : Option α → Verdict
  | some a => .recognized (kind a)
  | none => .declined

def domain (root : String) : Reader where
  name := "domain"
  builtin := true
  read s :=
    if s.language = .pddl then (Domain.read root s).map (verdictOf .domain) else .ok .declined

def problem : Reader where
  name := "problem"
  builtin := true
  read s :=
    if s.language = .pddl then (Problem.read s).map (verdictOf .problem) else .ok .declined

/-- What a document that begins with no definition is, by its language; a PDDL document is a plan
when its name says so. -/
def scheduleVerdict (s : Source) : Verdict :=
  match s.language with
  | .plan => .recognized (.plan (Schedule.read s.tree))
  | .happenings => .recognized (.happenings (Schedule.read s.tree))
  | .pddl =>
    if Language.ofFileName? s.uri = some .plan then .recognized (.plan (Schedule.read s.tree))
    else .declined

def plan : Reader where
  name := "plan"
  builtin := true
  read s := .ok (if Schedule.beginsWithDefinition s.tree then .declined else scheduleVerdict s)

/-- The readers of the library, in the order in which they are asked. -/
def builtins (root : String) : List Reader := [domain root, problem, plan]

/-! ## Readers for extensions -/

/-- Recognizes the sources that pass a test, always as the same content. -/
def when (name : String) (content : Content) (test : Source → Bool) : Reader where
  name := name
  builtin := false
  read s := .ok (if test s then .recognized content else .declined)

def always (name : String) (content : Content) : Reader := when name content fun _ => true

def never (name : String) : Reader := when name .unknown fun _ => false

def failing (name error : String) : Reader where
  name := name
  builtin := false
  read _ := .ok (.failed error)

/-- Recognizes documents whose first token, at any depth, is a word. -/
def whenFirstToken (name : String) (content : Content) (word : String) : Reader :=
  when name content fun s =>
    (s.tree.root.descendants.find? (·.isToken)).any fun n => String.ofList n.text == word

def whenHolding (name : String) (content : Content) (word : String) : Reader :=
  when name content fun s => Text.holds word.toList s.tree.text

def renamed (name : String) (r : Reader) : Reader := { r with name := name, builtin := false }

end Reader

end Pddl
