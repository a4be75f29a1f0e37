/-
  Pddl.Settings — how a project behaves.

  The two switches can be set from outside by variables; a variable is a sequence of bytes or is
  not set. It has to hold `true` or `false`, blanks around it apart. Any other value is reported
  and leaves the switch as it is.
-/

import Pddl.Hierarchy
import Pddl.Log

namespace Pddl

structure Settings where
  /-- The type that every type declared with none inherits from. -/
  typeRoot : String := Hierarchy.defaultRoot
  /-- Whether files are shown to the built-in readers. -/
  builtinReaders : Bool := true
  /-- Whether a new version of a domain makes the parsed problems that refer to it dirty. -/
  dirtyDependents : Bool := true
  deriving DecidableEq, Repr

namespace Settings

def switch? (value : List Char) : Option Bool :=
  let word := String.ofList (Text.trim value)
  if word = "true" then some true else if word = "false" then some false else none

/-- A switch as a variable sets it, and what is to be reported. -/
def readSwitch (key : String) (default : Bool) :
    Option (List UInt8) → Bool × List Log.Entry
  | none => (default, [])
  | some bytes =>
    match Text.decode? bytes with
    | none => (default, [.badBytes key bytes default])
    | some value =>
      match switch? value with
      | some b => (b, [])
      | none => (default, [.badSwitch key (String.ofList value) default])

def builtinVariable : String := "PDDL_WORKSPACE_BUILTIN_PARSERS"

def dependentsVariable : String := "PDDL_WORKSPACE_DIRTY_DEPENDENTS"

def ofVariables (builtin dependents : Option (List UInt8)) : Settings × List Log.Entry :=
  let b := readSwitch builtinVariable ({} : Settings).builtinReaders builtin
  let d := readSwitch dependentsVariable ({} : Settings).dirtyDependents dependents
  ({ builtinReaders := b.1, dirtyDependents := d.1 }, b.2 ++ d.2)

end Settings

end Pddl
