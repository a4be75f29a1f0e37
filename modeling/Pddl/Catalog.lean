/-
  Pddl.Catalog — the objects of each type.

  A catalog has one entry for each type, in the order in which types were first declared. The
  case of a type's name does not matter, and the entry keeps its first spelling. Its objects are
  listed in the order of their first declaration, each once; objects that differ in case are
  different objects, but asking for one ignores case.
-/

import Pddl.Hierarchy
import Pddl.Text.Name

namespace Pddl

structure Catalog.Entry where
  type : String
  objects : List String
  deriving DecidableEq, Repr

structure Catalog where
  entries : List Catalog.Entry
  deriving DecidableEq, Repr

namespace Catalog

namespace Entry

def add (e : Entry) (object : String) : Entry :=
  if object ∈ e.objects then e else { e with objects := e.objects ++ [object] }

def addAll (e : Entry) (objects : List String) : Entry := objects.foldl add e

def has (e : Entry) (object : String) : Bool := e.objects.any (Text.sameName · object)

def agrees (a b : Entry) : Bool := a.type == b.type && Digraph.sameMembers a.objects b.objects

def text (e : Entry) : String := e.type ++ ": " ++ Text.joined " " e.objects

def debugText (e : Entry) : String :=
  Text.record "TypeObjects"
    [("tpe", Text.quoted e.type.toList),
     ("objects", Text.enclosed "\x7b" "\x7d" (e.objects.map fun o => Text.quoted o.toList))]

end Entry

def empty : Catalog := ⟨[]⟩

def find? (c : Catalog) (type : String) : Option Entry :=
  c.entries.find? fun e => Text.sameName e.type type

/-- Declares objects of a type; the type is entered even if there are none. -/
def declare (c : Catalog) (type : String) (objects : List String) : Catalog :=
  if c.entries.any fun e => Text.sameName e.type type then
    ⟨c.entries.map fun e => if Text.sameName e.type type then e.addAll objects else e⟩
  else ⟨c.entries ++ [Entry.addAll ⟨type, []⟩ objects]⟩

def add (c : Catalog) (type object : String) : Catalog := c.declare type [object]

def objectsOf (c : Catalog) (type : String) : List String :=
  match c.find? type with
  | some e => e.objects
  | none => []

/-- The first type that has an object. -/
def typeOf? (c : Catalog) (object : String) : Option String :=
  (c.entries.find? (·.has object)).map (·.type)

def merge (c d : Catalog) : Catalog := d.entries.foldl (fun c e => c.declare e.type e.objects) c

def ofText (declaration : List Char) : Catalog :=
  (TypedList.groups declaration).foldl
    (fun c g => c.declare (g.type?.getD Hierarchy.defaultRoot) g.names) empty

/-- The catalog of a graph whose edges lead from objects to their types. -/
def ofDigraph (g : Digraph) : Catalog := g.namedEdges.foldl (fun c e => c.add e.2 e.1) empty

/-- Catalogs agree when they have entries for the same types that agree, in whatever order. -/
def agrees (c d : Catalog) : Bool :=
  c.entries.length == d.entries.length &&
    c.entries.all fun e => (d.find? e.type).any e.agrees

/-- One line `type: object object` for each type. -/
def text (c : Catalog) : String := Text.joined "\n" (c.entries.map Entry.text)

/-- The record of a catalog: entries stand behind their types in small letters. -/
def debugText (c : Catalog) : String :=
  Text.record "TypeObjectMap"
    [("types", Text.enclosed "\x7b" "\x7d"
      (c.entries.map fun e =>
        Text.quoted (Text.foldCase e.type).toList ++ ": " ++ e.debugText))]

end Catalog

end Pddl
