/-
  Pddl.Log — what is reported while working.

  Each report is a value that says what happened; its severity and its wording are functions of
  it (`Entry.level`, `Entry.message`).
-/

import Pddl.Text.Utf8

namespace Pddl.Log

inductive Level where
  | trace
  | debug
  | warn
  deriving DecidableEq, Repr

def Level.name : Level → String
  | trace => "trace"
  | debug => "debug"
  | warn => "warn"

inductive Entry where
  /-- An extension brings readers. -/
  | registering (readers : Nat)
  /-- A version is submitted that is not newer than the one at hand. -/
  | stale (uri : String) (version known : Int)
  /-- A closing bracket closes nothing. -/
  | stray (offset : Nat)
  | recognized (kind reader : String)
  | declined (reader : String)
  | failed (reader uri error : String)
  | unrecognized (uri : String)
  | storing (uri : String) (version : Int) (kind status : String)
  /-- Something happened to a file. -/
  | event (name uri : String)
  /-- A problem no longer fits its domain. -/
  | outdated (uri domain : String)
  /-- Several files carry the name that is looked for, none of them nearby. -/
  | ambiguous (what uri : String) (candidates : List String) (folder pick : String)
  /-- A variable holds neither `true` nor `false`. -/
  | badSwitch (key value : String) (default : Bool)
  /-- A variable does not hold text. -/
  | badBytes (key : String) (value : List UInt8) (default : Bool)
  deriving DecidableEq, Repr

namespace Entry

def level : Entry → Level
  | registering _ => .debug
  | stale _ _ _ => .trace
  | stray _ => .trace
  | recognized _ _ => .debug
  | declined _ => .trace
  | failed _ _ _ => .warn
  | unrecognized _ => .debug
  | storing _ _ _ _ => .debug
  | event _ _ => .trace
  | outdated _ _ => .debug
  | ambiguous _ _ _ _ _ => .warn
  | badSwitch _ _ _ => .warn
  | badBytes _ _ _ => .warn

def usingDefault (default : Bool) : String :=
  ". Using default: " ++ if default then "true" else "false"

def message : Entry → String
  | registering readers => "registering " ++ toString readers ++ " parser(s) from extension"
  | stale uri version known =>
    "ignoring version " ++ toString version ++ " of " ++ uri ++ ": version " ++ toString known ++
      " is already known"
  | stray offset => "unmatched closing bracket at offset " ++ toString offset
  | recognized kind reader => "recognized as " ++ kind ++ " by parser " ++ reader
  | declined reader => "declined by parser " ++ reader
  | failed reader uri error => "parser " ++ reader ++ " failed on " ++ uri ++ ": " ++ error
  | unrecognized uri => "no parser recognized " ++ uri
  | storing uri version kind status =>
    "storing " ++ uri ++ " v" ++ toString version ++ " as " ++ kind ++ " (" ++ status ++ ")"
  | event name uri => name ++ " " ++ uri
  | outdated uri domain => uri ++ " is dirty: domain " ++ domain ++ " changed"
  | ambiguous what uri candidates folder pick =>
    "ambiguous " ++ what ++ " for " ++ uri ++ ": candidates [" ++ Text.joined ", " candidates ++
      "], none in folder '" ++ folder ++ "', picking " ++ pick
  | badSwitch key value default =>
    "could not parse \"" ++ value ++ "\" for environment variable " ++ key ++
      usingDefault default
  | badBytes key value default =>
    key ++ ": environment variable was not valid unicode: " ++ Text.quotedBytes value ++
      usingDefault default

end Entry

end Pddl.Log
