/-
  Pddl.TypedList — lists of names with types.

  Types, constants and objects are all declared by lists such as `a b - t c - u d`: names, a
  hyphen on its own, and the type of the names before it. `groups` reads the words of such a
  list. A hyphen takes the next word as type, whatever it is; a hyphen with nothing behind it
  gives no type, and neither do names at the end without a hyphen.
-/

import Pddl.Text.Blank

namespace Pddl.TypedList

/-- Names declared together, and the type they are declared with. -/
structure Group where
  names : List String
  type? : Option String
  deriving DecidableEq, Repr

/-- The groups of a list of words, after the names `pending`. -/
def groupsFrom (pending : List String) : List String → List Group
  | [] => if pending.isEmpty then [] else [⟨pending, none⟩]
  | word :: words =>
    if word = "-" then
      match words with
      | [] => [⟨pending, none⟩]
      | type :: words => ⟨pending, some type⟩ :: groupsFrom [] words
    else groupsFrom (pending ++ [word]) words

def groups (declaration : List Char) : List Group :=
  groupsFrom [] ((Text.words declaration).map String.ofList)

end Pddl.TypedList
