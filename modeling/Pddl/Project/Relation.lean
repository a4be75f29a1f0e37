/-
  Pddl.Project.Relation — which files belong together.

  A problem belongs to the domain it names, a plan or happenings to the problem they name in
  their comments. Several files may carry the name; then one in the same folder is preferred, and
  the first of them otherwise (`closest?`), which is reported (`doubts`).
-/

import Pddl.Project.State

namespace Pddl.Project

/-- Of some candidates, the first in the folder of `f`, or else the first. -/
def closest? (f : File) (candidates : List File) : Option File :=
  match candidates.find? fun c => c.folder == f.folder with
  | some c => some c
  | none => candidates.head?

/-- What is reported of a choice among several candidates of which none is in the folder. -/
def doubts (what : String) (f : File) (candidates : List File) : List Log.Entry :=
  if candidates.any fun c => c.folder == f.folder then []
  else
    match candidates with
    | first :: _ :: _ =>
      [.ambiguous what f.uri (candidates.map (·.uri)) f.folder first.uri]
    | _ => []

def domainCandidates (p : Project) (problem : File) : List File :=
  match problem.content.problem?.bind (·.domain?) with
  | some name => p.files.filter (·.isDomainNamed name)
  | none => []

def domainFor? (p : Project) (problem : File) : Option File :=
  closest? problem (p.domainCandidates problem)

def problemsFor (p : Project) (domain : File) : List File :=
  match domain.domainName? with
  | some name => p.files.filter (·.refersTo name)
  | none => []

/-- Whether a problem is the one with a name, in the domain with a name if one is given. -/
def answersTo (name : String) (domain? : Option String) (problem : Problem) : Bool :=
  problem.hasName name && domain?.all problem.refersTo

def problemCandidates (p : Project) (plan : File) : List File :=
  match plan.content.schedule? with
  | none => []
  | some s =>
    match s.solved.problem? with
    | none => []
    | some name =>
      p.files.filter fun f => f.content.problem?.any (answersTo name s.solved.domain?)

def problemFor? (p : Project) (plan : File) : Option File :=
  closest? plan (p.problemCandidates plan)

end Pddl.Project
