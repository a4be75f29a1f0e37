/-
  Pddl.Proofs.Uri.Scans — which percent signs are read as escapes.

  Escapes have two hexadecimal digits. `Scans` replaces those and copies everything else, and there
  is one outcome for all bytes (`exists_scans`, `Scans.unique`). The scan that is made takes a plus
  sign in place of the first digit besides. As no percent sign belongs to an escape in front of it,
  both scans come by every percent sign:
  - `Scans.agrees_or_parts`: they agree, or part at the first percent sign with a plus sign and a
    digit behind it, with a different ASCII byte each;
  - `scanned_iff_no_signed_digit`: so the texts that they give are the same if and only if there is
    no such percent sign.
-/

import Pddl.Proofs.Uri.Escapes

namespace Pddl.Uri

open Text (charOf)

/-- Bytes are scanned from the left: a percent sign with two digits behind it is replaced by the
byte that they stand for, and every other byte is copied. -/
inductive Scans : List UInt8 → List UInt8 → Prop
  | done : Scans [] []
  | replaced {high low value : UInt8} {rest out : List UInt8} :
      Denotes (charOf high) (charOf low) value → Scans rest out →
      Scans (0x25 :: high :: low :: rest) (value :: out)
  | copied {byte : UInt8} {rest out : List UInt8} :
      (∀ high low behind value, byte :: rest = 0x25 :: high :: low :: behind →
        ¬ Denotes (charOf high) (charOf low) value) →
      Scans rest out → Scans (byte :: rest) (byte :: out)

variable {digit : Char} {value : Nat} {byte high low v : UInt8} {bytes rest out : List UInt8}

def HasSigned (bytes : List UInt8) : Prop :=
  ∃ front digit behind value, bytes = front ++ 0x25 :: 0x2B :: digit :: behind ∧
    HexDigit (charOf digit) value

theorem hasSigned_cons : HasSigned (byte :: rest) ↔
    (∃ digit behind value, byte :: rest = 0x25 :: 0x2B :: digit :: behind ∧
      HexDigit (charOf digit) value) ∨ HasSigned rest := by
  constructor
  · rintro ⟨front, digit, behind, value, heq, hdigit⟩
    cases front with
    | nil => exact .inl ⟨digit, behind, value, heq, hdigit⟩
    | cons b front => exact .inr ⟨front, digit, behind, value, (List.cons.inj heq).2, hdigit⟩
  · rintro (⟨digit, behind, value, heq, hdigit⟩ | ⟨front, digit, behind, value, rfl, hdigit⟩)
    · exact ⟨[], digit, behind, value, heq, hdigit⟩
    · exact ⟨byte :: front, digit, behind, value, rfl, hdigit⟩

theorem hasSigned_cons_of_ne (h : byte ≠ 0x25) : HasSigned (byte :: rest) ↔ HasSigned rest := by
  rw [hasSigned_cons, or_iff_right]
  rintro ⟨digit, behind, value, heq, -⟩
  exact h (List.cons.inj heq).1

theorem ne_percent_of_hexDigit (h : HexDigit (charOf byte) value) : byte ≠ 0x25 := by
  rintro rfl
  exact absurd h.le_toNat (by decide)

/-- An escape with two digits does not lead into the next one. -/
theorem hasSigned_escape (h : Denotes (charOf high) (charOf low) v) :
    HasSigned (0x25 :: high :: low :: rest) ↔ HasSigned rest := by
  rw [hasSigned_cons, hasSigned_cons_of_ne (ne_percent_of_hexDigit h.1),
    hasSigned_cons_of_ne (ne_percent_of_hexDigit h.2), or_iff_right]
  rintro ⟨digit, behind, value, heq, -⟩
  obtain rfl : high = 0x2B := (List.cons.inj (List.cons.inj heq).2).1
  exact absurd h.1.le_toNat (by decide)

theorem HexDigit.unique {other : Nat} (h : HexDigit digit value) (h' : HexDigit digit other) :
    value = other := by
  rw [hexDigit_iff] at h h'
  omega

theorem Denotes.unique {high low : Char} {other : UInt8} (h : Denotes high low byte)
    (h' : Denotes high low other) : byte = other := by
  have hhigh := h.1.unique h'.1
  have hlow := h.2.unique h'.2
  rw [← UInt8.toNat_inj]
  omega

theorem Scans.unique {other : List UInt8} (h : Scans bytes out) (h' : Scans bytes other) :
    out = other := by
  induction h generalizing other with
  | done =>
    cases h'
    rfl
  | replaced hdigits _ ih =>
    cases h' with
    | replaced hdigits' hrest => rw [hdigits.unique hdigits', ih hrest]
    | copied hno hrest => exact absurd hdigits (hno _ _ _ _ rfl)
  | copied hno _ ih =>
    cases h' with
    | replaced hdigits' hrest => exact absurd hdigits' (hno _ _ _ _ rfl)
    | copied hno' hrest => rw [ih hrest]

theorem exists_scans (bytes : List UInt8) : ∃ out, Scans bytes out := by
  match bytes with
  | [] => exact ⟨[], .done⟩
  | byte :: rest =>
    by_cases h : ∃ high low behind value, byte :: rest = 0x25 :: high :: low :: behind ∧
        Denotes (charOf high) (charOf low) value
    · obtain ⟨high, low, behind, value, heq, hdigits⟩ := h
      obtain ⟨out, hout⟩ := exists_scans behind
      exact ⟨value :: out, heq ▸ .replaced hdigits hout⟩
    · obtain ⟨out, hout⟩ := exists_scans rest
      refine ⟨byte :: out, .copied ?_ hout⟩
      intro high low behind value heq hdigits
      exact h ⟨high, low, behind, value, heq, hdigits⟩
termination_by bytes.length
decreasing_by
  · have hlength := congrArg List.length heq
    simp only [List.length_cons] at hlength ⊢
    omega
  · exact Nat.lt_succ_self _

/-- The scan that takes plus signs for digits leaves the other one at the first of them, with a
byte that no percent sign is. -/
theorem Scans.agrees_or_parts (h : Scans bytes out) :
    ¬ HasSigned bytes ∧ unescape bytes = out ∨
    HasSigned bytes ∧ ∃ front value behind behind', value.toNat < 16 ∧
      unescape bytes = front ++ value :: behind ∧ out = front ++ 0x25 :: behind' := by
  induction h with
  | done =>
    refine .inl ⟨?_, rfl⟩
    rintro ⟨front, digit, behind, value, heq, -⟩
    cases front <;> cases heq
  | replaced hdigits _ ih =>
    rw [hasSigned_escape hdigits, unescape_escape (escaped?_eq_some_iff.mpr (.inl hdigits))]
    rcases ih with ⟨hno, rfl⟩ | ⟨hsigned, front, value, behind, behind', hlt, heq, rfl⟩
    · exact .inl ⟨hno, rfl⟩
    · exact .inr ⟨hsigned, _ :: front, value, behind, behind', hlt, by rw [heq]; rfl, rfl⟩
  | @copied byte rest out hno _ ih =>
    rw [hasSigned_cons]
    by_cases hsigned : ∃ digit behind value, byte :: rest = 0x25 :: 0x2B :: digit :: behind ∧
        HexDigit (charOf digit) value
    · -- the scans part here: one replaces the sign and the digit, the other copies them
      refine .inr ⟨.inl hsigned, ?_⟩
      obtain ⟨digit, behind, value, heq, hdigit⟩ := hsigned
      have hvalue := UInt8.toNat_ofNat_of_lt' (Nat.lt_trans hdigit.1 (show 16 < 256 by decide))
      have hescaped : escaped? 0x2B digit = some (UInt8.ofNat value) :=
        escaped?_eq_some_iff.mpr (.inr ⟨rfl, by rwa [hvalue]⟩)
      refine ⟨[], UInt8.ofNat value, unescape behind, out, by rw [hvalue]; exact hdigit.1, ?_, ?_⟩
      · rw [heq, unescape_escape hescaped]
        rfl
      · rw [(List.cons.inj heq).1]
        rfl
    · have hcopy : unescape (byte :: rest) = byte :: unescape rest := by
        apply unescape_copy
        intro high low behind heq
        rw [Option.eq_none_iff_forall_ne_some]
        intro value hvalue
        rcases escaped?_eq_some_iff.mp hvalue with hdigits | ⟨rfl, hdigit⟩
        · exact hno high low behind value heq hdigits
        · exact hsigned ⟨low, behind, _, heq, hdigit⟩
      rw [or_iff_right hsigned, hcopy]
      rcases ih with ⟨hno', rfl⟩ | ⟨hsigned', front, value, behind, behind', hlt, heq, rfl⟩
      · exact .inl ⟨hno', rfl⟩
      · exact .inr ⟨hsigned', byte :: front, value, behind, behind', hlt, by rw [heq]; rfl, rfl⟩

/-- The two scans give the same text only if they give the same bytes. -/
theorem Scans.decodeLossy_eq_iff (h : Scans bytes out) :
    Text.decodeLossy (unescape bytes) = Text.decodeLossy out ↔ ¬ HasSigned bytes := by
  rcases h.agrees_or_parts with ⟨hno, rfl⟩ | ⟨hsigned, front, value, behind, behind', hlt, heq, rfl⟩
  · exact iff_of_true rfl hno
  · refine iff_of_false ?_ (not_not_intro hsigned)
    rw [heq, Text.decodeLossy_append_ascii (by omega), Text.decodeLossy_append_ascii (by decide)]
    intro hsame
    have hchar : charOf value = charOf 0x25 := (List.cons.inj (List.append_cancel_left hsame)).1
    have hnumber := congrArg Char.toNat hchar
    rw [Text.toNat_charOf, Text.toNat_charOf] at hnumber
    have hpercent : (0x25 : UInt8).toNat = 0x25 := rfl
    omega

theorem hasSigned_encode {cs : List Char} : HasSigned (Text.encode cs) ↔
    ∃ front digit behind value, cs = front ++ '%' :: '+' :: digit :: behind ∧
      HexDigit digit value := by
  constructor
  · rintro ⟨front, digit, behind, value, heq, hdigit⟩
    have hascii : digit.toNat < 0x80 := by
      rw [← Text.toNat_charOf]
      exact hdigit.ascii
    have hcs := Text.decodeLossy_encode cs
    rw [heq, Text.decodeLossy_append_ascii (by decide), Text.decodeLossy_cons_ascii (by decide),
      Text.decodeLossy_cons_ascii hascii] at hcs
    exact ⟨_, _, _, value, hcs.symm, hdigit⟩
  · rintro ⟨front, digit, behind, value, rfl, hdigit⟩
    refine ⟨Text.encode front, UInt8.ofNat digit.toNat, Text.encode behind, value, ?_, ?_⟩
    · rw [Text.encode_append, Text.encode_cons_ascii (by decide), Text.encode_cons_ascii (by decide),
        Text.encode_cons_ascii hdigit.ascii]
      rfl
    · rwa [Text.charOf_ofNat hdigit.ascii]

/-- Of the bytes of a text there is one scan that replaces percent signs with two digits behind
them and copies everything else. Decoding gives the text of this scan, with replacement characters
for what is broken, if and only if nowhere in the text a percent sign has a plus sign and a digit
behind it. -/
theorem scanned_iff_no_signed_digit (cs : List Char) :
    ∃ bytes, (∀ out, Scans (Text.encode cs) out ↔ out = bytes) ∧
      (decodeEscapes cs = Text.decodeLossy bytes ↔
        ¬ ∃ front digit behind value, cs = front ++ '%' :: '+' :: digit :: behind ∧
          HexDigit digit value) := by
  obtain ⟨bytes, hscans⟩ := exists_scans (Text.encode cs)
  refine ⟨bytes, ?_, ?_⟩
  · intro out
    constructor
    · intro h
      exact h.unique hscans
    · rintro rfl
      exact hscans
  · rw [← hasSigned_encode]
    exact hscans.decodeLossy_eq_iff

/-- A plus sign is taken for a digit: what should be copied is replaced by a control character. -/
theorem a_plus_sign_is_taken_for_a_digit :
    Scans (Text.encode "%+5".toList) (Text.encode "%+5".toList) ∧
      Text.decodeLossy (Text.encode "%+5".toList) = "%+5".toList ∧
      decodeEscapes "%+5".toList = [Char.ofNat 5] ∧
      decodeEscapes "%+5".toList ≠ Text.decodeLossy (Text.encode "%+5".toList) := by
  have hbytes : Text.encode "%+5".toList = [0x25, 0x2B, 0x35] := by decide
  have hread : decodeEscapes "%+5".toList = [Char.ofNat 5] := by decide +kernel
  have hcopied : Text.decodeLossy (Text.encode "%+5".toList) = "%+5".toList := by decide +kernel
  refine ⟨?_, hcopied, hread, ?_⟩
  · rw [hbytes]
    refine .copied ?_ (.copied nofun (.copied nofun .done))
    rintro high low behind value heq ⟨hhigh, -⟩
    obtain rfl : 0x2B = high := (List.cons.inj (List.cons.inj heq).2).1
    exact absurd hhigh.le_toNat (by decide)
  · rw [hread, hcopied]
    decide

end Pddl.Uri
