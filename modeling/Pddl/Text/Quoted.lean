/-
  Pddl.Text.Quoted — text in quotes, and records written with their field names.

  A quoted text stands between double quotes. A backslash goes before a quote and a backslash;
  NUL, tab, line feed and carriage return have a letter; other characters that are not printable
  are written by their code point in hexadecimal. Every other character stands for itself.
-/

import Pddl.Text.Printable

namespace Pddl.Text

def hexDigits (n : Nat) : List Char := Nat.toDigits 16 n

def quoteChar (c : Char) : List Char :=
  if c = '"' then ['\\', '"']
  else if c = '\\' then ['\\', '\\']
  else if c = '\n' then ['\\', 'n']
  else if c = '\r' then ['\\', 'r']
  else if c = '\t' then ['\\', 't']
  else if c.toNat = 0 then ['\\', '0']
  else if isPrintable c then [c]
  else ['\\', 'u', '\x7b'] ++ hexDigits c.toNat ++ ['\x7d']

def quoted (cs : List Char) : String :=
  String.ofList ('"' :: cs.flatMap quoteChar ++ ['"'])

def joined (sep : String) (pieces : List String) : String := sep.intercalate pieces

/-- A collection between an opening and a closing mark, with commas between its members. -/
def enclosed (opening closing : String) (pieces : List String) : String :=
  opening ++ joined ", " pieces ++ closing

/-- A record: its name, then its fields with their names between braces. -/
def record (name : String) (fields : List (String × String)) : String :=
  name ++ " \x7b " ++ joined ", " (fields.map fun f => f.1 ++ ": " ++ f.2) ++ " \x7d"

def optional (value : Option String) : String :=
  match value with
  | none => "None"
  | some v => "Some(" ++ v ++ ")"

end Pddl.Text
