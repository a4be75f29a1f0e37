/-
  Pddl.Language — the languages of planning files.

  Domains and problems are written in PDDL itself; plans and happenings have languages of their
  own, one step or happening to a line. A language is named in any case, and a file name gives
  its language by what follows its last dot.
-/

import Pddl.Text.Blank
import Pddl.Text.Name

namespace Pddl

inductive Language where
  | pddl
  | plan
  | happenings
  deriving DecidableEq, Repr

namespace Language

def name : Language → String
  | pddl => "pddl"
  | plan => "plan"
  | happenings => "happenings"

def ofName? (name : String) : Option Language :=
  [pddl, plan, happenings].find? fun l => l.name == Text.foldCase name

def unknownMessage (name : String) : String := "Unknown language `" ++ name ++ "`"

/-- The language of a file by its name or URI: what its last dot is followed by. -/
def ofFileName? (name : String) : Option Language :=
  match Text.splitLast? '.' name.toList with
  | some (_, ending) => ofName? (String.ofList ending)
  | none => none

def debugText : Language → String
  | pddl => "Pddl"
  | plan => "Plan"
  | happenings => "Happenings"

end Language

end Pddl
