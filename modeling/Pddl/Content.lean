/-
  Pddl.Content — what a file was recognized as.

  Besides the four kinds that the library reads itself, a file can have content of a kind that
  an extension brings (`Custom`), or be unknown. `Content.debugText` writes a content with all
  its fields.
-/

import Pddl.Domain
import Pddl.Problem
import Pddl.Schedule

namespace Pddl

/-- Content of a kind from outside: its type, and a label if contents of the type have one. -/
structure Custom where
  type : String
  label? : Option String
  deriving DecidableEq, Repr

/-- The kind a custom content is reported as: its label, or its type in small letters. -/
def Custom.name (c : Custom) : String := c.label?.getD (Text.foldCase c.type)

inductive Content where
  | domain (d : Domain)
  | problem (p : Problem)
  | plan (s : Schedule)
  | happenings (s : Schedule)
  | custom (c : Custom)
  | unknown

namespace Content

def name : Content → String
  | domain _ => "domain"
  | problem _ => "problem"
  | plan _ => "plan"
  | happenings _ => "happenings"
  | custom c => c.name
  | unknown => "unknown"

def domain? : Content → Option Domain
  | domain d => some d
  | _ => none

def problem? : Content → Option Problem
  | problem p => some p
  | _ => none

def schedule? : Content → Option Schedule
  | plan s => some s
  | happenings s => some s
  | _ => none

def isUnknown : Content → Bool
  | unknown => true
  | _ => false

def isCustom (type : String) : Content → Bool
  | custom c => c.type == type
  | _ => false

/-! ## Written with all fields -/

def quotedName (name? : Option String) : String :=
  Text.optional (name?.map fun n => Text.quoted n.toList)

def positionText (p : Position) : String :=
  Text.record "Position"
    [("line", toString p.line.toNat), ("character", toString p.column.toNat)]

def rangeText (r : Range) : String :=
  Text.record "PddlRange" [("start", positionText r.start), ("end", positionText r.stop)]

def domainText (d : Domain) : String :=
  Text.record "DomainInfo"
    [("name", quotedName d.name?),
     ("name_range", Text.optional (d.nameRange?.map rangeText)),
     ("requirements", Text.enclosed "[" "]" (d.requirements.map fun r => Text.quoted r.toList)),
     ("types", d.types.debugText),
     ("constants", d.constants.debugText)]

def problemText (p : Problem) : String :=
  Text.record "ProblemInfo"
    [("name", quotedName p.name?),
     ("name_range", Text.optional (p.nameRange?.map rangeText)),
     ("domain_name", quotedName p.domain?),
     ("objects", p.objects.debugText)]

def solvedText (s : Solved) : String :=
  Text.record "PlanMeta"
    [("domain_name", quotedName s.domain?), ("problem_name", quotedName s.problem?)]

def scheduleText (name counted : String) (s : Schedule) : String :=
  Text.record name [("meta", solvedText s.solved), (counted, toString s.steps)]

def customText (c : Custom) : String :=
  match c.label? with
  | some label => c.type ++ "(" ++ Text.quoted label.toList ++ ")"
  | none => c.type

/-- A constructor around its only argument. -/
def wrapped (name argument : String) : String := name ++ "(" ++ argument ++ ")"

def debugText : Content → String
  | domain d => wrapped "Domain" (domainText d)
  | problem p => wrapped "Problem" (problemText p)
  | plan s => wrapped "Plan" (scheduleText "PlanInfo" "steps" s)
  | happenings s => wrapped "Happenings" (scheduleText "HappeningsInfo" "happenings" s)
  | custom c => wrapped "Custom" (customText c)
  | unknown => "Unknown"

end Content

end Pddl
