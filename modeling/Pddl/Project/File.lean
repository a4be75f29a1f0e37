/-
  Pddl.Project.File — one version of one file.

  A file is kept with its tree, the content it was recognized as, and a status:
  - new: it was recognized;
  - parsed: it was recognized, and asked to be parsed;
  - dirty: it was parsed, and what it depends on has changed since;
  - unknown: nobody recognized it.
-/

import Pddl.Content
import Pddl.Uri

namespace Pddl

inductive Status where
  | new
  | parsed
  | dirty
  | unknown
  deriving DecidableEq, Repr

namespace Status

def name : Status → String
  | new => "new"
  | parsed => "parsed"
  | dirty => "dirty"
  | unknown => "unknown"

def debugText : Status → String
  | new => "New"
  | parsed => "Parsed"
  | dirty => "Dirty"
  | unknown => "Unknown"

end Status

structure File where
  uri : String
  version : Int
  language : Language
  status : Status
  tree : Tree
  locator : Locator
  content : Content

structure Location where
  /-- The number of the innermost node at the offset. -/
  node : Nat
  position : Position
  /-- The range of that node. -/
  range : Range
  /-- The position turned back into an offset. -/
  offset : Nat

namespace File

/-- The last segment of the file's URI. -/
def name (f : File) : String := Uri.fileName f.uri

def folder (f : File) : String := Uri.folder f.uri

def isDomain (f : File) : Bool := f.content.domain?.isSome

def isProblem (f : File) : Bool := f.content.problem?.isSome

def isPlan (f : File) : Bool := match f.content with | .plan _ => true | _ => false

def isHappenings (f : File) : Bool := match f.content with | .happenings _ => true | _ => false

def isDomainNamed (f : File) (name : String) : Bool := f.content.domain?.any (·.hasName name)

def refersTo (f : File) (domain : String) : Bool := f.content.problem?.any (·.refersTo domain)

def domainName? (f : File) : Option String := f.content.domain?.bind (·.name?)

def locate (f : File) (offset : Nat) : Except Fault Location := do
  let n := f.tree.nodeAt offset
  let position ← f.locator.positionOf offset
  let range ← Tree.rangeOf f.locator n
  let back ← f.locator.offsetOf position
  return ⟨n.id, position, range, back⟩

def debugText (f : File) : String :=
  Text.record "FileInfo"
    [("uri", Text.quoted f.uri.toList), ("version", toString f.version),
     ("language", f.language.debugText), ("status", f.status.debugText),
     ("kind", f.content.debugText)]

end File

end Pddl
