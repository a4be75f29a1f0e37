/-
  Pddl.Proofs.Text.Kept — the bytes of a text at the offsets that are kept.

  The bytes of a text have the offsets from its start on, one after the other. `kept` leaves out the
  bytes whose offsets are not wanted, and keeps the others in order:
  - `kept_append`: what is kept of a text is what is kept of its parts, each at its own offset;
  - `kept_all`, `kept_none`: all bytes of a part are kept, or none of them.
-/

import Pddl.Text.Bytes
import Pddl.Text.Utf8

namespace Pddl.Text

/-- The bytes of a text that starts at offset `start`, without those at offsets that are not to be
kept. -/
def kept (keep : Nat → Bool) (start : Nat) (cs : List Char) : List UInt8 :=
  (((encode cs).zipIdx start).filter fun entry => keep entry.2).map (·.1)

@[simp] theorem encode_append (a b : List Char) : encode (a ++ b) = encode a ++ encode b := by
  simp [encode]

@[simp] theorem length_encode (cs : List Char) : (encode cs).length = byteLength cs := by
  induction cs with
  | nil => rfl
  | cons c cs ih =>
    simp only [encode, List.flatMap_cons, List.length_append, String.length_utf8EncodeChar] at ih ⊢
    rw [ih, byteLength_cons]

variable {keep : Nat → Bool} {start : Nat} {cs : List Char}

theorem kept_append (keep : Nat → Bool) (start : Nat) (a b : List Char) :
    kept keep start (a ++ b) = kept keep start a ++ kept keep (start + byteLength a) b := by
  simp [kept, List.zipIdx_append]

theorem kept_all (h : ∀ o, start ≤ o → o < start + byteLength cs → keep o = true) :
    kept keep start cs = encode cs := by
  have hall : ((encode cs).zipIdx start).filter (fun entry => keep entry.2) =
      (encode cs).zipIdx start := by
    refine List.filter_eq_self.mpr fun ⟨byte, o⟩ hmem => ?_
    obtain ⟨hle, hlt, -⟩ := List.mem_zipIdx hmem
    rw [length_encode] at hlt
    exact h o hle hlt
  rw [kept, hall, List.zipIdx_map_fst]

theorem kept_none (h : ∀ o, start ≤ o → o < start + byteLength cs → keep o = false) :
    kept keep start cs = [] := by
  have hnone : ((encode cs).zipIdx start).filter (fun entry => keep entry.2) = [] := by
    refine List.filter_eq_nil_iff.mpr fun ⟨byte, o⟩ hmem => ?_
    obtain ⟨hle, hlt, -⟩ := List.mem_zipIdx hmem
    rw [length_encode] at hlt
    simp [h o hle hlt]
  rw [kept, hnone, List.map_nil]

end Pddl.Text
