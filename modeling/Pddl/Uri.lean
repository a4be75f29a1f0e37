/-
  Pddl.Uri — the path a URI names.

  The path is what is left of a URI without scheme, authority, query and fragment, with percent
  escapes decoded and backslashes turned into slashes. A plain path is its own path. A scheme has
  at least two characters, so that the drive letter of `c:\dir` is not taken for one.

  An escape is a percent sign and two characters: two hexadecimal digits, or a plus sign and one
  digit. Other percent signs stand for themselves. The decoded bytes are read as UTF-8, bytes
  that form no character giving a replacement character.
-/

import Pddl.Text.Utf8

namespace Pddl.Uri

/-! ## Percent escapes -/

def hexValue? (byte : UInt8) : Option UInt8 :=
  if 0x30 ≤ byte && byte ≤ 0x39 then some (byte - 0x30)
  else if 0x41 ≤ byte && byte ≤ 0x46 then some (byte - 0x37)
  else if 0x61 ≤ byte && byte ≤ 0x66 then some (byte - 0x57)
  else none

/-- The byte that two characters after a percent sign denote. -/
def escaped? (high low : UInt8) : Option UInt8 :=
  if high = 0x2B then hexValue? low
  else
    match hexValue? high, hexValue? low with
    | some h, some l => some (h * 16 + l)
    | _, _ => none

def unescape : List UInt8 → List UInt8
  | byte :: high :: low :: rest =>
    if byte = 0x25 then
      match escaped? high low with
      | some value => value :: unescape rest
      | none => byte :: unescape (high :: low :: rest)
    else byte :: unescape (high :: low :: rest)
  | bytes => bytes

def decodeEscapes (cs : List Char) : List Char := Text.decodeLossy (unescape (Text.encode cs))

/-! ## Parts of a URI -/

def isSchemeChar (c : Char) : Bool := c.isAlphanum || c == '+' || c == '.' || c == '-'

def afterScheme? : List Char → Option (List Char)
  | [] => none
  | c :: cs =>
    if c.isAlpha && !(cs.takeWhile isSchemeChar).isEmpty then
      match cs.dropWhile isSchemeChar with
      | ':' :: rest => some rest
      | _ => none
    else none

def endsAuthority (c : Char) : Bool := c == '/' || c == '?' || c == '#'

/-- What follows the authority, which stands behind two slashes. -/
def afterAuthority : List Char → List Char
  | '/' :: '/' :: rest => rest.dropWhile (!endsAuthority ·)
  | cs => cs

def beforeQuery (cs : List Char) : List Char := cs.takeWhile fun c => c != '?' && c != '#'

def rawPath (uri : List Char) : List Char :=
  beforeQuery (match afterScheme? uri with
    | some rest => afterAuthority rest
    | none => uri)

def path (uri : String) : List Char :=
  (decodeEscapes (rawPath uri.toList)).map fun c => if c = '\\' then '/' else c

def fileName (uri : String) : String :=
  match Text.splitLast? '/' (path uri) with
  | some (_, name) => String.ofList name
  | none => String.ofList (path uri)

/-- The path without its last segment; empty if it has only one. -/
def folder (uri : String) : String :=
  match Text.splitLast? '/' (path uri) with
  | some (folder, _) => String.ofList folder
  | none => ""

end Pddl.Uri
