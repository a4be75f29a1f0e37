/-
  Pddl.Proofs.Text.Slice — cutting a text at byte offsets.

  An offset is a boundary of a text when it is the number of bytes of a first part of it
  (`Boundary`). Cutting is by offsets, while a text is put together from its parts:
  - `slice?_middle`: the part between two others is what is cut out at its offsets;
  - `slice?_inside`: what is cut out inside a part is cut out of the whole behind what comes first.
-/

import Pddl.Text.Bytes

namespace Pddl.Text

theorem byteLength_pos {cs : List Char} (h : cs ≠ []) : 0 < byteLength cs := by
  cases cs with
  | nil => exact absurd rfl h
  | cons c cs =>
    have := c.utf8Size_pos
    rw [byteLength_cons]
    omega

/-- An offset at which a text can be cut: it does not fall inside a character, nor past the end. -/
def Boundary (cs : List Char) (offset : Nat) : Prop :=
  ∃ a b, cs = a ++ b ∧ byteLength a = offset

theorem dropBytes?_append (a b : List Char) : dropBytes? (byteLength a) (a ++ b) = some b := by
  induction a with
  | nil => cases b <;> simp [dropBytes?]
  | cons c a ih =>
    have hne : c.utf8Size ≠ 0 := Nat.ne_of_gt c.utf8Size_pos
    simp [dropBytes?, hne, ih]

theorem takeBytes?_append (a b : List Char) : takeBytes? (byteLength a) (a ++ b) = some a := by
  induction a with
  | nil => cases b <;> simp [takeBytes?]
  | cons c a ih =>
    have hne : c.utf8Size ≠ 0 := Nat.ne_of_gt c.utf8Size_pos
    simp [takeBytes?, hne, ih]

/-- What stands between two parts of a text is cut out at its offsets. -/
theorem slice?_middle {cs a m b : List Char} {start stop : Nat} (hcs : cs = a ++ m ++ b)
    (hstart : byteLength a = start) (hstop : stop = start + byteLength m) :
    slice? start stop cs = some m := by
  have hlen : stop - start = byteLength m := by omega
  have hle : start ≤ stop := by omega
  rw [slice?, if_pos hle, hlen, hcs, ← hstart, List.append_assoc, dropBytes?_append,
    Option.bind_some, takeBytes?_append]

/-! ## Cutting inside a part -/

theorem dropBytes?_behind (a cs : List Char) (n : Nat) :
    dropBytes? (byteLength a + n) (a ++ cs) = dropBytes? n cs := by
  induction a with
  | nil => simp
  | cons c a ih =>
    have hpos := c.utf8Size_pos
    have hrest : c.utf8Size + byteLength a + n - c.utf8Size = byteLength a + n := by omega
    rw [List.cons_append, byteLength_cons, dropBytes?, if_neg (by omega), if_pos (by omega), hrest,
      ih]

theorem dropBytes?_front {n : Nat} {m : List Char} (h : n ≤ byteLength m) (b : List Char) :
    dropBytes? n (m ++ b) = (dropBytes? n m).map (· ++ b) := by
  induction m generalizing n with
  | nil =>
    obtain rfl : n = 0 := by simpa using h
    cases b <;> simp [dropBytes?]
  | cons c m ih =>
    rw [byteLength_cons] at h
    rw [List.cons_append, dropBytes?, dropBytes?]
    by_cases hzero : n = 0
    · simp [hzero]
    · by_cases hsize : c.utf8Size ≤ n
      · simp [hzero, hsize, ih (n := n - c.utf8Size) (by omega)]
      · simp [hzero, hsize]

theorem takeBytes?_front {n : Nat} {m : List Char} (h : n ≤ byteLength m) (b : List Char) :
    takeBytes? n (m ++ b) = takeBytes? n m := by
  induction m generalizing n with
  | nil =>
    obtain rfl : n = 0 := by simpa using h
    cases b <;> simp [takeBytes?]
  | cons c m ih =>
    rw [byteLength_cons] at h
    rw [List.cons_append, takeBytes?, takeBytes?]
    by_cases hzero : n = 0
    · simp [hzero]
    · by_cases hsize : c.utf8Size ≤ n
      · simp [hzero, hsize, ih (n := n - c.utf8Size) (by omega)]
      · simp [hzero, hsize]

theorem byteLength_dropBytes? {n : Nat} {m rest : List Char} (h : dropBytes? n m = some rest) :
    n + byteLength rest = byteLength m := by
  induction m generalizing n with
  | nil =>
    by_cases hzero : n = 0
    · simp_all [dropBytes?]
    · simp [dropBytes?, hzero] at h
  | cons c m ih =>
    rw [dropBytes?] at h
    by_cases hzero : n = 0
    · simp_all
    · by_cases hsize : c.utf8Size ≤ n
      · simp only [hzero, hsize, if_true, if_false] at h
        have := ih h
        rw [byteLength_cons]
        omega
      · simp [hzero, hsize] at h

/-- What is cut out inside a part of a text is cut out of the whole text, at offsets that count what
stands in front of the part. -/
theorem slice?_inside {cs a m b : List Char} (hcs : cs = a ++ m ++ b) (start : Nat) {stop : Nat}
    (hstop : stop ≤ byteLength m) :
    slice? (byteLength a + start) (byteLength a + stop) cs = slice? start stop m := by
  by_cases hle : start ≤ stop
  · have hwidth : byteLength a + stop - (byteLength a + start) = stop - start := by omega
    have hdrop : dropBytes? start (m ++ b) = (dropBytes? start m).map (· ++ b) :=
      dropBytes?_front (Nat.le_trans hle hstop) b
    rw [slice?, slice?, if_pos (by omega), if_pos hle, hwidth, hcs, List.append_assoc,
      dropBytes?_behind, hdrop]
    cases hrest : dropBytes? start m with
    | none => rfl
    | some rest =>
      have := byteLength_dropBytes? hrest
      exact takeBytes?_front (by omega) b
  · rw [slice?, slice?, if_neg (by omega), if_neg hle]

end Pddl.Text
