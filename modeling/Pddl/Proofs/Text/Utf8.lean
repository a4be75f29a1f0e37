/-
  Pddl.Proofs.Text.Utf8 — the bytes of a text are read back as the text.

  Bytes are read one after the other, with the character that has been begun as the state.
  - `pieces_utf8EncodeChar`: the bytes of a character, behind a finished piece, are read as the
    character. Its first byte says how many are missing, the bounds of the second one admit it,
    and the last one ends the character;
  - `decodeLossy_encode`: so a text comes back from its bytes, with no replacement character;
  - `decodeLossy_append_ascii`: a byte below 0x80 goes on with no character, so that bytes may be
    read apart on its two sides, whatever stands in front of it.
-/

import Pddl.Proofs.Text.Kept

namespace Pddl.Text

variable {b value missing low high : Nat} {byte : UInt8} {begun rest : List UInt8}

/-! ## The bytes of a character -/

theorem piecesFrom_two (h : 0xC2 ≤ b) (h' : b < 0xE0) :
    piecesFrom none (UInt8.ofNat b :: rest) =
      piecesFrom (some ⟨[UInt8.ofNat b], b - 0xC0, 1, 0x80, 0xBF⟩) rest := by
  have hb := UInt8.toNat_ofNat_of_lt' (show b < 256 by omega)
  simp only [piecesFrom, readByte, beginByte, hb]
  rw [if_neg (by omega), if_neg (by omega), if_pos (by omega)]
  rfl

theorem piecesFrom_three (h : 0xE0 ≤ b) (h' : b < 0xF0) :
    piecesFrom none (UInt8.ofNat b :: rest) =
      piecesFrom (some ⟨[UInt8.ofNat b], b - 0xE0, 2,
        if b = 0xE0 then 0xA0 else 0x80, if b = 0xED then 0x9F else 0xBF⟩) rest := by
  have hb := UInt8.toNat_ofNat_of_lt' (show b < 256 by omega)
  simp only [piecesFrom, readByte, beginByte, hb]
  rw [if_neg (by omega), if_neg (by omega), if_neg (by omega), if_pos (by omega)]
  rfl

theorem piecesFrom_four (h : 0xF0 ≤ b) (h' : b < 0xF5) :
    piecesFrom none (UInt8.ofNat b :: rest) =
      piecesFrom (some ⟨[UInt8.ofNat b], b - 0xF0, 3,
        if b = 0xF0 then 0x90 else 0x80, if b = 0xF4 then 0x8F else 0xBF⟩) rest := by
  have hb := UInt8.toNat_ofNat_of_lt' (show b < 256 by omega)
  simp only [piecesFrom, readByte, beginByte, hb]
  rw [if_neg (by omega), if_neg (by omega), if_neg (by omega), if_neg (by omega),
    if_pos (by omega)]
  rfl

/-- A byte within the bounds of a character that misses more than one goes on with it. -/
theorem piecesFrom_inner (hb : b < 256) (hlow : low ≤ b) (hhigh : b ≤ high) :
    piecesFrom (some ⟨begun, value, missing + 2, low, high⟩) (UInt8.ofNat b :: rest) =
      piecesFrom (some ⟨begun ++ [UInt8.ofNat b], value * 64 + (b - 0x80), missing + 1,
        0x80, 0xBF⟩) rest := by
  simp only [piecesFrom, readByte, UInt8.toNat_ofNat_of_lt' hb]
  rw [if_pos (by simp [hlow, hhigh]), if_neg (by omega)]
  rfl

/-- A byte within the bounds of a character that misses only one ends it. -/
theorem piecesFrom_last (hb : b < 256) (hlow : low ≤ b) (hhigh : b ≤ high) :
    piecesFrom (some ⟨begun, value, 1, low, high⟩) (UInt8.ofNat b :: rest) =
      .char (Char.ofNat (value * 64 + (b - 0x80))) :: pieces rest := by
  simp only [piecesFrom, readByte, UInt8.toNat_ofNat_of_lt' hb]
  rw [if_pos (by simp [hlow, hhigh]), if_pos (Nat.le_refl 1)]
  rfl

theorem pieces_utf8EncodeChar (c : Char) (rest : List UInt8) :
    pieces (String.utf8EncodeChar c ++ rest) = .char c :: pieces rest := by
  have hvalid := c.valid
  have hc : Char.ofNat c.val.toNat = c := Char.ofNat_toNat c
  simp only [UInt32.isValidChar, Nat.isValidChar] at hvalid
  unfold pieces String.utf8EncodeChar
  simp only
  generalize c.val.toNat = v at *
  split
  · have hv := UInt8.toNat_ofNat_of_lt' (show v < 256 by omega)
    have hbegin : beginByte (UInt8.ofNat v) = ([.char c], none) := by
      rw [beginByte, hv, if_pos (by omega), hc]
    simp only [List.cons_append, List.nil_append, piecesFrom, readByte, hbegin]
  split
  · have hvalue : (v / 64 % 32 + 0xC0 - 0xC0) * 64 + (v % 64 + 0x80 - 0x80) = v := by omega
    simp only [List.cons_append, List.nil_append]
    rw [piecesFrom_two (by omega) (by omega), piecesFrom_last (by omega) (by omega) (by omega),
      hvalue, hc]
    rfl
  split
  · have hvalue : ((v / 4096 % 16 + 0xE0 - 0xE0) * 64 + (v / 64 % 64 + 0x80 - 0x80)) * 64 +
        (v % 64 + 0x80 - 0x80) = v := by omega
    simp only [List.cons_append, List.nil_append]
    rw [piecesFrom_three (by omega) (by omega),
      piecesFrom_inner (by omega) (by split <;> omega) (by split <;> omega),
      piecesFrom_last (by omega) (by omega) (by omega), hvalue, hc]
    rfl
  · have hvalue : (((v / 262144 % 8 + 0xF0 - 0xF0) * 64 + (v / 4096 % 64 + 0x80 - 0x80)) * 64 +
        (v / 64 % 64 + 0x80 - 0x80)) * 64 + (v % 64 + 0x80 - 0x80) = v := by omega
    simp only [List.cons_append, List.nil_append]
    rw [piecesFrom_four (by omega) (by omega),
      piecesFrom_inner (by omega) (by split <;> omega) (by split <;> omega),
      piecesFrom_inner (by omega) (by omega) (by omega),
      piecesFrom_last (by omega) (by omega) (by omega), hvalue, hc]
    rfl

/-! ## ASCII bytes -/

/-- The character with the number of a byte, which is that of the byte alone if it is below 0x80. -/
def charOf (byte : UInt8) : Char := Char.ofNat byte.toNat

theorem toNat_charOf (byte : UInt8) : (charOf byte).toNat = byte.toNat := by
  have hlt := byte.toNat_lt
  rw [charOf, Char.ofNat, dif_pos (.inl (by omega))]
  rfl

theorem charOf_ofNat {c : Char} (h : c.toNat < 0x80) : charOf (UInt8.ofNat c.toNat) = c := by
  rw [charOf, UInt8.toNat_ofNat_of_lt' (show c.toNat < 256 by omega)]
  exact Char.ofNat_toNat c

theorem beginByte_ascii (h : byte.toNat < 0x80) :
    beginByte byte = ([.char (charOf byte)], none) := by
  simp [beginByte, h, charOf]

theorem low_of_beginByte : ∀ s ∈ (beginByte byte).2, 0x80 ≤ s.low := by
  intro s hs
  unfold beginByte at hs
  grind

theorem low_of_readByte {begun : Option Begun} : ∀ s ∈ (readByte begun byte).2, 0x80 ≤ s.low := by
  intro s hs
  cases begun with
  | none => exact low_of_beginByte s hs
  | some t =>
    simp only [readByte] at hs
    split at hs
    · split at hs
      · cases hs
      · obtain rfl := Option.some.inj hs
        exact Nat.le_refl 0x80
    · exact low_of_beginByte s hs

theorem piecesFrom_append_ascii (hbyte : byte.toNat < 0x80) {begun : Option Begun}
    (hbegun : ∀ s ∈ begun, 0x80 ≤ s.low) (bytes rest : List UInt8) :
    piecesFrom begun (bytes ++ byte :: rest) =
      piecesFrom begun bytes ++ .char (charOf byte) :: pieces rest := by
  induction bytes generalizing begun with
  | nil =>
    cases begun with
    | none => simp [piecesFrom, readByte, beginByte_ascii hbyte, pieces]
    | some s =>
      have hlow := hbegun s rfl
      have hout : ¬ s.low ≤ byte.toNat := by omega
      simp [piecesFrom, readByte, hout, beginByte_ascii hbyte, pieces]
  | cons b bytes ih =>
    simp only [List.cons_append, piecesFrom, List.append_assoc]
    rw [ih low_of_readByte]

theorem decodeLossy_append_ascii (hbyte : byte.toNat < 0x80) (bytes rest : List UInt8) :
    decodeLossy (bytes ++ byte :: rest) =
      decodeLossy bytes ++ charOf byte :: decodeLossy rest := by
  unfold decodeLossy
  rw [pieces, piecesFrom_append_ascii hbyte (by simp), List.map_append, List.map_cons]
  rfl

theorem decodeLossy_cons_ascii (hbyte : byte.toNat < 0x80) (rest : List UInt8) :
    decodeLossy (byte :: rest) = charOf byte :: decodeLossy rest :=
  decodeLossy_append_ascii hbyte [] rest

theorem decodeLossy_encode (cs : List Char) : decodeLossy (encode cs) = cs := by
  induction cs with
  | nil => rfl
  | cons c cs ih =>
    have hpieces : pieces (encode (c :: cs)) = .char c :: pieces (encode cs) :=
      pieces_utf8EncodeChar c (encode cs)
    unfold decodeLossy at ih ⊢
    rw [hpieces, List.map_cons, ih]

/-- A byte below 0x80 in the bytes of a character is the whole character. -/
theorem eq_of_mem_utf8EncodeChar {c : Char} (hbyte : byte.toNat < 0x80)
    (h : byte ∈ String.utf8EncodeChar c) : c = charOf byte := by
  obtain ⟨front, behind, hparts⟩ := List.append_of_mem h
  have hchar : decodeLossy (String.utf8EncodeChar c) = [c] := by
    have := decodeLossy_encode [c]
    rwa [encode, List.flatMap_singleton] at this
  rw [hparts, decodeLossy_append_ascii hbyte] at hchar
  rcases List.append_eq_singleton_iff.mp hchar with ⟨-, hbehind⟩ | ⟨-, hbehind⟩
  · exact (List.cons.inj hbehind).1.symm
  · cases hbehind

theorem encode_cons_ascii {c : Char} (h : c.toNat < 0x80) (cs : List Char) :
    encode (c :: cs) = UInt8.ofNat c.toNat :: encode cs := by
  have hbytes : String.utf8EncodeChar c = [UInt8.ofNat c.toNat] := if_pos (Nat.le_of_lt_succ h)
  rw [encode, List.flatMap_cons, hbytes]
  rfl

end Pddl.Text
