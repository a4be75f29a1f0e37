/-
  Pddl.Proofs.Position.Lines — the line of an offset.

  A line starts behind each line feed, so the line of an offset is the number of line feeds in front
  of the offset:
  - `Stands.countP_starts`: the lines up to that of an offset are those that start at or before it;
  - `feedsBefore_eq`: between two line feeds all offsets have the same number of them in front;
  - `line_of_positionOf`: this number is the line that is found for the offset.
-/

import Pddl.Proofs.Position.Offsets

namespace Pddl

namespace LineMap

variable {m : LineMap} {line column offset : Nat} {cs a w b : List Char}

def feedsBefore (cs : List Char) (offset : Nat) : Nat := (startsFrom 0 cs).countP (· ≤ offset)

theorem startsFrom_append (here : Nat) (a b : List Char) :
    startsFrom here (a ++ b) = startsFrom here a ++ startsFrom (here + Text.byteLength a) b := by
  induction a generalizing here with
  | nil => rfl
  | cons c a ih =>
    by_cases hc : c = '\n'
    · simp [startsFrom, hc, ih, Nat.add_assoc]
    · simp [startsFrom, hc, ih, Nat.add_assoc]

theorem length_startsFrom (here : Nat) (cs : List Char) :
    (startsFrom here cs).length = cs.count '\n' := by
  induction cs generalizing here with
  | nil => rfl
  | cons c cs ih =>
    by_cases hc : c = '\n'
    · simp [startsFrom, hc, ih]
    · simp [startsFrom, hc, ih]

/-- The lines up to the one of an offset are those that start at or before the offset. -/
theorem Stands.countP_starts (hm : m.Ordered) (h : m.Stands line column offset) :
    m.starts.countP (· ≤ offset) = line + 1 := by
  obtain ⟨start, hstart, hoffset, hstop⟩ := h
  obtain ⟨hline, rfl⟩ := List.getElem?_eq_some_iff.mp hstart
  have hbefore : (m.starts.take (line + 1)).countP (· ≤ offset) = line + 1 := by
    rw [List.countP_eq_length.mpr, List.length_take_of_le hline]
    intro s hs
    obtain ⟨i, hi, rfl⟩ := List.mem_take_iff_getElem.mp hs
    rw [decide_eq_true_eq]
    rcases Nat.lt_or_ge i line with hlt | hge
    · have := hm.start_lt (List.getElem?_eq_getElem (by omega)) hstart hlt
      omega
    · obtain rfl : i = line := by omega
      omega
  have hafter : (m.starts.drop (line + 1)).countP (· ≤ offset) = 0 := by
    refine List.countP_eq_zero.mpr fun s hs => ?_
    obtain ⟨i, hi, rfl⟩ := List.mem_drop_iff_getElem.mp hs
    have hindex : line + 1 + i < m.starts.length := by omega
    have : m.lineStop line < m.starts[line + 1 + i] :=
      hm.lineStop_lt (List.getElem?_eq_getElem hindex) (by omega)
    rw [decide_eq_true_eq]
    omega
  have hparts := List.take_append_drop (line + 1) m.starts
  rw [← hparts, List.countP_append, hbefore, hafter]

/-- On a part of a text without line feeds, all offsets have the line feeds in front of it in front
of them. -/
theorem feedsBefore_eq (hcs : cs = a ++ w ++ b) (hw : '\n' ∉ w) (hle : Text.byteLength a ≤ offset)
    (hlt : offset < Text.byteLength a + Text.byteLength w) :
    feedsBefore cs offset = a.count '\n' := by
  have hfront : (startsFrom 0 a).countP (· ≤ offset) = a.count '\n' := by
    rw [List.countP_eq_length.mpr, length_startsFrom]
    intro start hstart
    have := (startsFrom_bounds hstart).2
    rw [decide_eq_true_eq]
    omega
  have hmiddle : startsFrom (0 + Text.byteLength a) w = [] := by
    rw [← List.length_eq_zero_iff, length_startsFrom]
    exact List.count_eq_zero_of_not_mem hw
  have hback : (startsFrom (0 + Text.byteLength (a ++ w)) b).countP (· ≤ offset) = 0 := by
    refine List.countP_eq_zero.mpr fun start hstart => ?_
    have := (startsFrom_bounds hstart).1
    rw [Text.byteLength_append] at this
    rw [decide_eq_true_eq]
    omega
  rw [feedsBefore, hcs, startsFrom_append, startsFrom_append, hmiddle, List.append_nil,
    List.countP_append, hfront, hback, Nat.add_zero]

end LineMap

/-- The line found for an offset is the number of line feeds in front of it. -/
theorem Locator.line_of_positionOf {cs : List Char} {offset : Nat} {p : Position}
    (hsize : Text.byteLength cs < UInt32.size) (h : (ofText cs).positionOf offset = .ok p) :
    p.line.toNat = LineMap.feedsBefore cs offset := by
  have hm := LineMap.ordered_ofText cs
  have hcount := ((LineMap.positionOf_eq_ok_iff hm hsize).mp h).countP_starts hm
  have hstarts : (LineMap.ofText cs).starts = 0 :: LineMap.startsFrom 0 cs := rfl
  rw [hstarts, List.countP_cons_of_pos (by simp)] at hcount
  exact (Nat.succ.inj hcount).symm

end Pddl
