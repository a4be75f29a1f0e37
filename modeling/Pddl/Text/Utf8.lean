/-
  Pddl.Text.Utf8 — bytes as text.

  `pieces` reads bytes as UTF-8 from the left. What does not form a character is kept as a broken
  piece: the bytes of a character that was begun and not finished, or a single byte that begins
  none. Three views of the pieces are used:
  - `decodeLossy` puts one replacement character for each broken piece;
  - `decode?` is defined only when nothing is broken;
  - `quotedBytes` writes the bytes of broken pieces in hexadecimal.
-/

import Pddl.Text.Quoted

namespace Pddl.Text

def encode (cs : List Char) : List UInt8 := cs.flatMap String.utf8EncodeChar

inductive Piece where
  | char (c : Char)
  | broken (bytes : List UInt8)
  deriving DecidableEq, Repr

/-- A character that has been begun: the value of its bytes so far, how many bytes are missing,
and the bounds of the next one. -/
structure Begun where
  bytes : List UInt8
  value : Nat
  missing : Nat
  low : Nat
  high : Nat
  deriving DecidableEq, Repr

/-- Reads a byte that follows a finished piece. The bounds of the second byte exclude encodings
that are longer than needed, surrogates, and values past the last code point. -/
def beginByte (byte : UInt8) : List Piece × Option Begun :=
  let b := byte.toNat
  if b < 0x80 then ([.char (Char.ofNat b)], none)
  else if b < 0xC2 then ([.broken [byte]], none)
  else if b < 0xE0 then ([], some ⟨[byte], b - 0xC0, 1, 0x80, 0xBF⟩)
  else if b < 0xF0 then
    ([], some ⟨[byte], b - 0xE0, 2,
      if b = 0xE0 then 0xA0 else 0x80, if b = 0xED then 0x9F else 0xBF⟩)
  else if b < 0xF5 then
    ([], some ⟨[byte], b - 0xF0, 3,
      if b = 0xF0 then 0x90 else 0x80, if b = 0xF4 then 0x8F else 0xBF⟩)
  else ([.broken [byte]], none)

/-- Reads one byte: the pieces it finishes, and the character it leaves begun. -/
def readByte (begun : Option Begun) (byte : UInt8) : List Piece × Option Begun :=
  match begun with
  | none => beginByte byte
  | some s =>
    if s.low ≤ byte.toNat && byte.toNat ≤ s.high then
      let value := s.value * 64 + (byte.toNat - 0x80)
      if s.missing ≤ 1 then ([.char (Char.ofNat value)], none)
      else ([], some ⟨s.bytes ++ [byte], value, s.missing - 1, 0x80, 0xBF⟩)
    else
      let r := beginByte byte
      (.broken s.bytes :: r.1, r.2)

def piecesFrom (begun : Option Begun) : List UInt8 → List Piece
  | [] => match begun with
    | none => []
    | some s => [.broken s.bytes]
  | byte :: bytes =>
    let r := readByte begun byte
    r.1 ++ piecesFrom r.2 bytes

def pieces (bytes : List UInt8) : List Piece := piecesFrom none bytes

/-- The text of bytes, with a replacement character for each broken piece. -/
def decodeLossy (bytes : List UInt8) : List Char :=
  (pieces bytes).map fun
    | .char c => c
    | .broken _ => '\uFFFD'

def decode? (bytes : List UInt8) : Option (List Char) :=
  (pieces bytes).mapM fun
    | .char c => some c
    | .broken _ => none

/-- A byte as `\x` and two hexadecimal digits in capital letters. -/
def quoteByte (byte : UInt8) : List Char :=
  let digit (n : Nat) := (Nat.digitChar n).toUpper
  ['\\', 'x', digit (byte.toNat / 16), digit (byte.toNat % 16)]

/-- Bytes between double quotes: text is quoted, and broken pieces are written byte by byte. -/
def quotedBytes (bytes : List UInt8) : String :=
  let body := (pieces bytes).flatMap fun
    | .char c => quoteChar c
    | .broken bytes => bytes.flatMap quoteByte
  String.ofList ('"' :: body ++ ['"'])

end Pddl.Text
