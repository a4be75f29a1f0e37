/-
  Pddl.Proofs.Uri.Escapes — escapes are read as they are written.

  A byte is written as a percent sign and two hexadecimal digits. Any character of a text may be
  written as escapes of all its bytes, the percent sign has to be (`Escapes`).
  - `escaped?_eq_some_iff`: which two characters behind a percent sign are read as a byte;
  - `unescape_escape`, `unescape_copy`: one step of the scan, which replaces an escape or copies a
    byte with which none begins;
  - `unescape_append_apart`: no escape reaches over a byte that cannot belong to one;
  - `decoding_undoes_escaping`: a text that is written with escapes is read back.
-/

import Mathlib.Data.List.Basic
import Pddl.Proofs.Text.Utf8
import Pddl.Uri

namespace Pddl.Uri

open Text (charOf)

def HexDigit (digit : Char) (value : Nat) : Prop :=
  value < 16 ∧ (digit = Nat.digitChar value ∨ digit = (Nat.digitChar value).toUpper)

instance (digit : Char) (value : Nat) : Decidable (HexDigit digit value) :=
  inferInstanceAs (Decidable (_ ∧ _))

def Denotes (high low : Char) (byte : UInt8) : Prop :=
  HexDigit high (byte.toNat / 16) ∧ HexDigit low (byte.toNat % 16)

instance (high low : Char) (byte : UInt8) : Decidable (Denotes high low byte) :=
  inferInstanceAs (Decidable (_ ∧ _))

variable {digit : Char} {value : Nat} {byte high low v : UInt8} {bytes rest out : List UInt8}

/-! ## Digits -/

theorem hexDigit_iff : HexDigit digit value ↔ value < 10 ∧ digit.toNat = 0x30 + value ∨
    10 ≤ value ∧ value < 16 ∧ (digit.toNat = 0x57 + value ∨ digit.toNat = 0x37 + value) := by
  have hdigits : ∀ n < 16, (Nat.digitChar n).toNat = (if n < 10 then 0x30 + n else 0x57 + n) ∧
      (Nat.digitChar n).toUpper.toNat = if n < 10 then 0x30 + n else 0x37 + n := by decide
  rw [HexDigit, ← Char.toNat_inj, ← Char.toNat_inj]
  constructor
  · rintro ⟨hlt, h⟩
    rw [(hdigits value hlt).1, (hdigits value hlt).2] at h
    split at h <;> omega
  · intro h
    have hlt : value < 16 := by omega
    rw [(hdigits value hlt).1, (hdigits value hlt).2]
    split <;> omega

theorem hexValue?_eq_some_iff : hexValue? byte = some v ↔ HexDigit (charOf byte) v.toNat := by
  have hsub {k : Nat} (hk : k < 256) (hle : k ≤ byte.toNat) :
      some (byte - UInt8.ofNat k) = some v ↔ byte.toNat = k + v.toNat := by
    have hk' := UInt8.toNat_ofNat_of_lt' hk
    rw [Option.some.injEq, ← UInt8.toNat_inj, UInt8.toNat_sub_of_le _ _
      (UInt8.le_iff_toNat_le.mpr (by omega)), hk']
    omega
  rw [hexDigit_iff, Text.toNat_charOf]
  unfold hexValue?
  simp only [UInt8.le_iff_toNat_le, Bool.and_eq_true, decide_eq_true_eq, UInt8.reduceToNat]
  split
  · exact (hsub (k := 0x30) (by omega) (by omega)).trans (by omega)
  split
  · exact (hsub (k := 0x37) (by omega) (by omega)).trans (by omega)
  split
  · exact (hsub (k := 0x57) (by omega) (by omega)).trans (by omega)
  · simp only [reduceCtorEq, false_iff]
    omega

theorem HexDigit.ascii (h : HexDigit digit value) : digit.toNat < 0x80 := by
  rw [hexDigit_iff] at h
  omega

/-- Digits have higher numbers than the plus sign, the percent sign and the dot. -/
theorem HexDigit.le_toNat (h : HexDigit digit value) : 0x30 ≤ digit.toNat := by
  rw [hexDigit_iff] at h
  omega

theorem denotes_iff {high low : Char} : Denotes high low byte ↔
    ∃ h l : Nat, HexDigit high h ∧ HexDigit low l ∧ byte.toNat = h * 16 + l := by
  constructor
  · rintro ⟨hhigh, hlow⟩
    exact ⟨_, _, hhigh, hlow, by omega⟩
  · rintro ⟨h, l, hhigh, hlow, hbyte⟩
    have hlt := hlow.1
    obtain ⟨rfl, rfl⟩ : h = byte.toNat / 16 ∧ l = byte.toNat % 16 := by omega
    exact ⟨hhigh, hlow⟩

theorem toNat_of_digits {h l : UInt8} (hh : h.toNat < 16) (hl : l.toNat < 16) :
    (h * 16 + l).toNat = h.toNat * 16 + l.toNat := by
  have hbase : (16 : UInt8).toNat = 16 := rfl
  rw [UInt8.toNat_add, UInt8.toNat_mul, hbase]
  omega

/-- Two characters behind a percent sign are taken for an escape if they are two digits, or else a
plus sign and a digit. -/
theorem escaped?_eq_some_iff : escaped? high low = some v ↔
    Denotes (charOf high) (charOf low) v ∨ high = 0x2B ∧ HexDigit (charOf low) v.toNat := by
  by_cases hplus : high = 0x2B
  · subst hplus
    have hno : ¬ Denotes (charOf 0x2B) (charOf low) v := fun h =>
      absurd h.1.le_toNat (by decide)
    rw [escaped?, if_pos rfl, hexValue?_eq_some_iff]
    simp only [hno, true_and, false_or]
  · have hmatch : escaped? high low =
        (hexValue? high).bind fun h => (hexValue? low).map fun l => h * 16 + l := by
      rw [escaped?, if_neg hplus]
      cases hexValue? high <;> cases hexValue? low <;> rfl
    simp only [hmatch, Option.bind_eq_some_iff, Option.map_eq_some_iff, hexValue?_eq_some_iff,
      hplus, false_and, or_false, denotes_iff]
    constructor
    · rintro ⟨h, hhigh, l, hlow, rfl⟩
      exact ⟨_, _, hhigh, hlow, toNat_of_digits hhigh.1 hlow.1⟩
    · rintro ⟨h, l, hhigh, hlow, hsum⟩
      have hh := UInt8.toNat_ofNat_of_lt' (Nat.lt_trans hhigh.1 (show 16 < 256 by decide))
      have hl := UInt8.toNat_ofNat_of_lt' (Nat.lt_trans hlow.1 (show 16 < 256 by decide))
      rw [← hh] at hhigh
      rw [← hl] at hlow
      refine ⟨_, hhigh, _, hlow, ?_⟩
      rw [← UInt8.toNat_inj, toNat_of_digits hhigh.1 hlow.1, hh, hl, hsum]

/-! ## One step of the scan -/

theorem unescape_escape (h : escaped? high low = some v) :
    unescape (0x25 :: high :: low :: rest) = v :: unescape rest := by
  simp [unescape, h]

/-- A byte with which no escape begins is copied. -/
theorem unescape_copy
    (h : ∀ high low behind, byte :: rest = 0x25 :: high :: low :: behind → escaped? high low = none) :
    unescape (byte :: rest) = byte :: unescape rest := by
  match rest with
  | [] => rfl
  | [_] => rfl
  | high :: low :: behind =>
    rw [unescape]
    split
    · rename_i hbyte
      rw [h high low behind (by rw [hbyte])]
    · rfl

theorem unescape_append_of_not_mem (h : 0x25 ∉ bytes) (rest : List UInt8) :
    unescape (bytes ++ rest) = bytes ++ unescape rest := by
  induction bytes with
  | nil => rfl
  | cons byte bytes ih =>
    rw [List.mem_cons, not_or] at h
    rw [List.cons_append, unescape_copy, ih h.2, List.cons_append]
    intro high low behind heq
    exact absurd (List.cons.inj heq).1.symm h.1

/-! ## Bytes that belong to no escape -/

def Apart (byte : UInt8) : Prop :=
  byte ≠ 0x25 ∧ byte ≠ 0x2B ∧ ∀ value, ¬ HexDigit (charOf byte) value

theorem Apart.escaped?_left (h : Apart byte) : escaped? byte low = none := by
  rw [Option.eq_none_iff_forall_ne_some]
  intro v hv
  rcases escaped?_eq_some_iff.mp hv with hdigits | ⟨hplus, -⟩
  · exact h.2.2 _ hdigits.1
  · exact h.2.1 hplus

theorem Apart.escaped?_right (h : Apart byte) : escaped? high byte = none := by
  rw [Option.eq_none_iff_forall_ne_some]
  intro v hv
  rcases escaped?_eq_some_iff.mp hv with hdigits | ⟨-, hdigit⟩
  · exact h.2.2 _ hdigits.2
  · exact h.2.2 _ hdigit

theorem Apart.unescape_cons (h : Apart byte) (behind : List UInt8) :
    unescape (byte :: behind) = byte :: unescape behind := by
  apply unescape_copy
  intro high low rest heq
  exact absurd (List.cons.inj heq).1 h.1

/-- No escape reaches over a byte that belongs to none. -/
theorem unescape_append_apart (h : Apart byte) (front behind : List UInt8) :
    unescape (front ++ byte :: behind) = unescape front ++ byte :: unescape behind := by
  fun_induction unescape front with
  | case1 high low rest value hvalue ih =>
    rw [List.cons_append, List.cons_append, List.cons_append, unescape_escape hvalue, ih]
    rfl
  | case2 high low rest hnone ih =>
    rw [List.cons_append, unescape_copy, ih]
    · rfl
    · intro high' low' rest' heq
      simp only [List.cons_append, List.cons.injEq] at heq
      obtain ⟨-, rfl, rfl, -⟩ := heq
      exact hnone
  | case3 first high low rest hfirst ih =>
    rw [List.cons_append, unescape_copy, ih]
    · rfl
    · intro high' low' rest' heq
      exact absurd (List.cons.inj heq).1 hfirst
  | case4 front hshort =>
    -- an escape that begins in fewer than three bytes would need the byte
    match front with
    | [] => exact h.unescape_cons behind
    | [first] =>
      rw [List.cons_append, unescape_copy, List.nil_append, h.unescape_cons]
      · rfl
      · intro high low rest heq
        simp only [List.nil_append, List.cons.injEq] at heq
        obtain ⟨-, rfl, -⟩ := heq
        exact h.escaped?_left
    | [first, second] =>
      rw [List.cons_append, List.cons_append, unescape_copy, unescape_copy, List.nil_append,
        h.unescape_cons]
      · rfl
      · intro high low rest heq
        simp only [List.nil_append, List.cons.injEq] at heq
        obtain ⟨-, rfl, -⟩ := heq
        exact h.escaped?_left
      · intro high low rest heq
        simp only [List.nil_append, List.cons.injEq] at heq
        obtain ⟨-, rfl, rfl, -⟩ := heq
        exact h.escaped?_right
    | first :: second :: third :: rest => exact absurd rfl (hshort first second third rest)

theorem decodeEscapes_append_apart {c : Char} (hc : c.toNat < 0x80)
    (h : Apart (UInt8.ofNat c.toNat)) (front behind : List Char) :
    decodeEscapes (front ++ c :: behind) = decodeEscapes front ++ c :: decodeEscapes behind := by
  have hbyte := UInt8.toNat_ofNat_of_lt' (show c.toNat < 256 by omega)
  unfold decodeEscapes
  rw [Text.encode_append, Text.encode_cons_ascii hc, unescape_append_apart h,
    Text.decodeLossy_append_ascii (by omega), Text.charOf_ofNat hc]

/-! ## Escaping -/

inductive EscapedBytes : List UInt8 → List Char → Prop
  | nil : EscapedBytes [] []
  | cons {byte : UInt8} {high low : Char} {bytes : List UInt8} {written : List Char} :
      Denotes high low byte → EscapedBytes bytes written →
      EscapedBytes (byte :: bytes) ('%' :: high :: low :: written)

/-- A text is written with escapes: any character may be written as escapes of all its bytes, and
any other than the percent sign may stand as it is. -/
inductive Escapes : List Char → List Char → Prop
  | nil : Escapes [] []
  | plain {c : Char} {text written : List Char} :
      c ≠ '%' → Escapes text written → Escapes (c :: text) (c :: written)
  | escaped {c : Char} {escapes text written : List Char} :
      EscapedBytes (String.utf8EncodeChar c) escapes → Escapes text written →
      Escapes (c :: text) (escapes ++ written)

variable {text written : List Char}

theorem encode_escape {high low : Char} (h : Denotes high low byte) (cs : List Char) :
    Text.encode ('%' :: high :: low :: cs) =
      0x25 :: UInt8.ofNat high.toNat :: UInt8.ofNat low.toNat :: Text.encode cs := by
  rw [Text.encode_cons_ascii (by decide), Text.encode_cons_ascii h.1.ascii,
    Text.encode_cons_ascii h.2.ascii]
  rfl

theorem unescape_escapedBytes (h : EscapedBytes bytes written) (rest : List UInt8) :
    unescape (Text.encode written ++ rest) = bytes ++ unescape rest := by
  induction h with
  | nil => rfl
  | cons hdigits _ ih =>
    rw [encode_escape hdigits, List.cons_append, List.cons_append, List.cons_append,
      unescape_escape, ih, List.cons_append]
    rw [escaped?_eq_some_iff, Text.charOf_ofNat hdigits.1.ascii, Text.charOf_ofNat hdigits.2.ascii]
    exact .inl hdigits

theorem percent_not_mem_utf8EncodeChar {c : Char} (h : c ≠ '%') :
    0x25 ∉ String.utf8EncodeChar c := by
  intro hmem
  exact h (Text.eq_of_mem_utf8EncodeChar (by decide) hmem)

theorem unescape_encode (h : Escapes text written) :
    unescape (Text.encode written) = Text.encode text := by
  induction h with
  | nil => rfl
  | plain hc _ ih =>
    show unescape (String.utf8EncodeChar _ ++ Text.encode _) = _
    rw [unescape_append_of_not_mem (percent_not_mem_utf8EncodeChar hc), ih]
    rfl
  | escaped hbytes _ ih =>
    rw [Text.encode_append, unescape_escapedBytes hbytes, ih]
    rfl

/-- Whatever is written with escapes is read back. -/
theorem decoding_undoes_escaping (text written : List Char) (h : Escapes text written) :
    decodeEscapes written = text := by
  rw [decodeEscapes, unescape_encode h, Text.decodeLossy_encode]

/-- Digits in capital and in small letters, an escaped percent sign in front of what looks like
digits, a character beside its own escapes, and an escape at the very end. -/
theorem an_escaped_percent_sign_is_no_escape :
    Escapes "é%41é%".toList "%c3%A9%2541é%25".toList ∧
      decodeEscapes "%c3%A9%2541é%25".toList = "é%41é%".toList := by
  have hpercent : EscapedBytes (String.utf8EncodeChar '%') ['%', '2', '5'] :=
    .cons (by decide) .nil
  have haccent : EscapedBytes (String.utf8EncodeChar 'é') ['%', 'c', '3', '%', 'A', '9'] :=
    .cons (by decide) (.cons (by decide) .nil)
  have hescapes : Escapes "é%41é%".toList "%c3%A9%2541é%25".toList :=
    .escaped haccent (.escaped hpercent (.plain (by decide) (.plain (by decide)
      (.plain (by decide) (.escaped hpercent .nil)))))
  exact ⟨hescapes, decoding_undoes_escaping _ _ hescapes⟩

end Pddl.Uri
