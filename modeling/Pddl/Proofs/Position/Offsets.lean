/-
  Pddl.Proofs.Position.Offsets — offsets and positions of a text are the same thing.

  The lines of a text share its offsets out among themselves: a line has those from its start to
  its line feed, the last line those up to the end of the text (`LineMap.Stands`). Looking a
  position up checks just that. Looking an offset up finds the line that has it, and there is
  only one, because lines start one after the other (`LineMap.Ordered`).
  - `stands_lt_iff`: of two offsets the one on the earlier line, or in the earlier column of the
    same line, is the smaller;
  - `positionOf_eq_ok_iff`, `offsetOf_eq_ok_iff`: both directions answer with where an offset
    stands, as long as lines and columns fit into their words;
  - `offsets_are_positions`: so they are inverse to each other and keep the order, and two offsets
    give a range exactly when they are in order and in the text.
-/

import Mathlib.Order.Basic
import Mathlib.Data.List.Basic
import Mathlib.Order.Compare
import Pddl.Locator

namespace Pddl

namespace LineMap

variable {m : LineMap} {line column offset line' column' offset' : Nat}

def Stands (m : LineMap) (line column offset : Nat) : Prop :=
  ∃ start, m.starts[line]? = some start ∧ offset = start + column ∧ offset ≤ m.lineStop line

/-- Lines start one after the other in the text, the first where the text does. -/
structure Ordered (m : LineMap) : Prop where
  first : m.starts[0]? = some 0
  increasing : m.starts.Pairwise (· < ·)
  within : ∀ start ∈ m.starts, start ≤ m.size

/-! ## Where lines start -/

theorem startsFrom_bounds {here start : Nat} {cs : List Char} (h : start ∈ startsFrom here cs) :
    here < start ∧ start ≤ here + Text.byteLength cs := by
  induction cs generalizing here with
  | nil => cases h
  | cons c cs ih =>
    have hpos := c.utf8Size_pos
    rw [Text.byteLength_cons]
    by_cases hc : c = '\n'
    · rw [startsFrom, if_pos hc] at h
      rcases List.mem_cons.mp h with rfl | h
      · omega
      · have := ih h
        omega
    · rw [startsFrom, if_neg hc] at h
      have := ih h
      omega

theorem startsFrom_increasing (here : Nat) (cs : List Char) :
    (startsFrom here cs).Pairwise (· < ·) := by
  induction cs generalizing here with
  | nil => exact .nil
  | cons c cs ih =>
    by_cases hc : c = '\n'
    · rw [startsFrom, if_pos hc]
      exact List.pairwise_cons.mpr ⟨fun start h => (startsFrom_bounds h).1, ih _⟩
    · rw [startsFrom, if_neg hc]
      exact ih _

theorem ordered_ofText (cs : List Char) : (ofText cs).Ordered := by
  refine ⟨rfl, List.pairwise_cons.mpr ⟨?_, startsFrom_increasing 0 cs⟩, ?_⟩
  · intro start h
    exact (startsFrom_bounds h).1
  · intro start h
    show start ≤ Text.byteLength cs
    rcases List.mem_cons.mp h with rfl | h
    · exact Nat.zero_le _
    · have := (startsFrom_bounds h).2
      omega

theorem Ordered.start_lt (hm : m.Ordered) {start start' : Nat} (h : m.starts[line]? = some start)
    (h' : m.starts[line']? = some start') (hlt : line < line') : start < start' := by
  obtain ⟨hi, rfl⟩ := List.getElem?_eq_some_iff.mp h
  obtain ⟨hj, rfl⟩ := List.getElem?_eq_some_iff.mp h'
  exact List.pairwise_iff_getElem.mp hm.increasing line line' hi hj hlt

/-- There are at least as many bytes before a line as lines. -/
theorem Ordered.line_le_start (hm : m.Ordered) {start : Nat} (h : m.starts[line]? = some start) :
    line ≤ start := by
  induction line generalizing start with
  | zero => exact Nat.zero_le _
  | succ line ih =>
    obtain ⟨hi, -⟩ := List.getElem?_eq_some_iff.mp h
    have hprev := List.getElem?_eq_getElem (Nat.lt_of_succ_lt hi)
    have := ih hprev
    have := hm.start_lt hprev h (Nat.lt_succ_self line)
    omega

theorem Ordered.lineStop_le (hm : m.Ordered) (line : Nat) : m.lineStop line ≤ m.size := by
  unfold lineStop
  split
  · rename_i next hnext
    have := hm.within next (List.mem_of_getElem? hnext)
    omega
  · exact Nat.le_refl _

/-- A line stops before the next one starts. -/
theorem Ordered.lineStop_lt (hm : m.Ordered) {start : Nat} (h : m.starts[line']? = some start)
    (hlt : line < line') : m.lineStop line < start := by
  obtain ⟨hi, -⟩ := List.getElem?_eq_some_iff.mp h
  obtain ⟨next, hnext⟩ : ∃ next, m.starts[line + 1]? = some next :=
    ⟨_, List.getElem?_eq_getElem (Nat.lt_of_le_of_lt hlt hi)⟩
  have hzero : 0 < next := hm.start_lt hm.first hnext (Nat.succ_pos line)
  have hle : next ≤ start := by
    rcases Nat.eq_or_lt_of_le hlt with rfl | hlt
    · exact Nat.le_of_eq (Option.some.inj (hnext.symm.trans h))
    · exact Nat.le_of_lt (hm.start_lt hnext h hlt)
  simp only [lineStop, hnext]
  omega

/-! ## Where offsets stand -/

theorem Stands.le_size (hm : m.Ordered) (h : m.Stands line column offset) : offset ≤ m.size := by
  obtain ⟨start, -, -, hstop⟩ := h
  exact Nat.le_trans hstop (hm.lineStop_le line)

theorem Stands.lt_of_line_lt (hm : m.Ordered) (h : m.Stands line column offset)
    (h' : m.Stands line' column' offset') (hlt : line < line') : offset < offset' := by
  obtain ⟨start, -, -, hstop⟩ := h
  obtain ⟨start', hstart', hoffset', -⟩ := h'
  have := hm.lineStop_lt hstart' hlt
  omega

theorem Stands.offset_eq_of_line_eq (h : m.Stands line column offset)
    (h' : m.Stands line column' offset') : offset + column' = offset' + column := by
  obtain ⟨start, hstart, hoffset, -⟩ := h
  obtain ⟨start', hstart', hoffset', -⟩ := h'
  obtain rfl : start = start' := Option.some.inj (hstart.symm.trans hstart')
  omega

/-- Offsets are ordered by their lines, and on one line by their columns. -/
theorem stands_lt_iff (hm : m.Ordered) (h : m.Stands line column offset)
    (h' : m.Stands line' column' offset') :
    offset < offset' ↔ line < line' ∨ line = line' ∧ column < column' := by
  rcases Nat.lt_trichotomy line line' with hlt | rfl | hgt
  · exact iff_of_true (h.lt_of_line_lt hm h' hlt) (.inl hlt)
  · have := h.offset_eq_of_line_eq h'
    omega
  · have := h'.lt_of_line_lt hm h hgt
    omega

theorem Stands.unique (hm : m.Ordered) (h : m.Stands line column offset)
    (h' : m.Stands line' column' offset) : line = line' ∧ column = column' := by
  have hlt := stands_lt_iff hm h h'
  have hgt := stands_lt_iff hm h' h
  omega

/-! ## Looking up -/

theorem offsetOf_eq_ok_iff {p : Position} :
    m.offsetOf p = .ok offset ↔ m.Stands p.line.toNat p.column.toNat offset := by
  unfold offsetOf Stands
  cases hstart : m.starts[p.line.toNat]? with
  | none => simp
  | some start =>
    simp only [Option.some.injEq, exists_eq_left']
    split
    · rename_i hle
      simp only [Except.ok.injEq]
      omega
    · rename_i hle
      simp only [reduceCtorEq, false_iff]
      omega

/-- The line found for an offset is the one that has it. -/
theorem exists_stands (hm : m.Ordered) (h : offset ≤ m.size) :
    ∃ line column, m.Stands line column offset ∧
      m.positionOf offset = .ok ⟨line.toUInt32, column.toUInt32⟩ := by
  have hsplit := List.takeWhile_append_dropWhile (p := fun start => decide (start ≤ offset))
    (l := m.starts)
  have hafter := List.head?_dropWhile_not (fun start => decide (start ≤ offset)) m.starts
  have hbefore := List.all_takeWhile (p := fun start => decide (start ≤ offset)) (l := m.starts)
  rw [positionOf, if_pos h]
  generalize m.starts.takeWhile (fun start => decide (start ≤ offset)) = before at *
  generalize m.starts.dropWhile (fun start => decide (start ≤ offset)) = after at *
  -- the first line starts at zero, so there is a last line that starts at or before the offset
  rcases List.eq_nil_or_concat before with rfl | ⟨front, start, rfl⟩
  · have hfirst := hm.first
    rw [← hsplit, List.nil_append, ← List.head?_eq_getElem?] at hfirst
    rw [hfirst] at hafter
    simp at hafter
  · rw [List.concat_eq_append, List.append_assoc, List.singleton_append] at hsplit
    refine ⟨front.length, offset - start, ⟨start, ?_, ?_, ?_⟩, ?_⟩
    · rw [← hsplit, List.getElem?_append_right (Nat.le_refl _), Nat.sub_self]
      rfl
    · have hle : start ≤ offset := by
        have hmem : start ∈ front.concat start := by simp
        simpa using List.all_eq_true.mp hbefore start hmem
      omega
    · have hnext : m.starts[front.length + 1]? = after.head? := by
        rw [← hsplit, List.getElem?_append_right (Nat.le_add_right _ 1), Nat.add_sub_cancel_left,
          List.getElem?_cons_succ, List.head?_eq_getElem?]
      rw [lineStop, hnext]
      cases hhead : after.head? with
      | none => exact h
      | some next =>
        simp only [hhead, decide_eq_false_iff_not] at hafter
        show offset ≤ next - 1
        omega
    · simp

/-- In a text whose lines and columns fit into their words, an offset is found where it stands. -/
theorem positionOf_eq_ok_iff (hm : m.Ordered) (hsize : m.size < UInt32.size) {p : Position} :
    m.positionOf offset = .ok p ↔ m.Stands p.line.toNat p.column.toNat offset := by
  by_cases hle : offset ≤ m.size
  · obtain ⟨line, column, hstands, hfound⟩ := exists_stands hm hle
    have hline : line.toUInt32.toNat = line := by
      obtain ⟨start, hstart, hoffset, -⟩ := hstands
      have := hm.line_le_start hstart
      exact UInt32.toNat_ofNat_of_lt' (by omega)
    have hcolumn : column.toUInt32.toNat = column := by
      obtain ⟨start, -, hoffset, -⟩ := hstands
      exact UInt32.toNat_ofNat_of_lt' (by omega)
    rw [hfound, Except.ok.injEq]
    constructor
    · rintro rfl
      rw [hline, hcolumn]
      exact hstands
    · intro h
      obtain ⟨hl, hc⟩ := hstands.unique hm h
      obtain ⟨pl, pc⟩ := p
      rw [hl, hc]
      simp
  · have hnone : m.positionOf offset = .error (.offsetBeyondText offset m.size) := if_neg hle
    rw [hnone]
    exact iff_of_false nofun fun h => hle (h.le_size hm)

end LineMap

/-! ## The order of positions -/

theorem Position.lt_iff_toNat {p q : Position} :
    p < q ↔ p.line.toNat < q.line.toNat ∨
      p.line.toNat = q.line.toNat ∧ p.column.toNat < q.column.toNat := by
  rw [Position.lt_def, UInt32.lt_iff_toNat_lt, UInt32.lt_iff_toNat_lt, UInt32.toNat_inj]

theorem Position.le_iff_lt_or_eq {p q : Position} : p ≤ q ↔ p < q ∨ p = q := by
  obtain ⟨pl, pc⟩ := p
  obtain ⟨ql, qc⟩ := q
  simp only [Position.le_def, Position.lt_def, Position.mk.injEq, UInt32.le_iff_lt_or_eq]
  tauto

/-! ## The locator of a text -/

namespace Locator

/-- The range between two offsets runs from the position of the one to that of the other. -/
theorem rangeOf_eq_ok_iff {l : Locator} {start stop : Nat} {r : Range} :
    l.rangeOf start stop = .ok r ↔
      l.positionOf start = .ok r.start ∧ l.positionOf stop = .ok r.stop := by
  obtain ⟨a, b, hab⟩ := r
  have hopen : l.rangeOf start stop =
      (l.positionOf start).bind fun a => (l.positionOf stop).bind fun b => Range.between a b := rfl
  rw [hopen]
  cases l.positionOf start with
  | error e => simp [Except.bind]
  | ok p =>
    cases l.positionOf stop with
    | error e => simp [Except.bind]
    | ok q =>
      simp only [Except.bind, Range.between, Except.ok.injEq]
      split
      · simp
      · rename_i hpq
        refine iff_of_false nofun ?_
        rintro ⟨rfl, rfl⟩
        exact hpq hab

variable {cs : List Char} {p q : Position} {o o' : Nat}

section

variable (hsize : Text.byteLength cs < UInt32.size)

include hsize

theorem positionOf_iff_offsetOf :
    (ofText cs).positionOf o = .ok p ↔ (ofText cs).offsetOf p = .ok o := by
  show (LineMap.ofText cs).positionOf o = .ok p ↔ (LineMap.ofText cs).offsetOf p = .ok o
  rw [LineMap.positionOf_eq_ok_iff (LineMap.ordered_ofText cs) hsize, LineMap.offsetOf_eq_ok_iff]

theorem lt_iff_of_positionOf (hp : (ofText cs).positionOf o = .ok p)
    (hq : (ofText cs).positionOf o' = .ok q) : p < q ↔ o < o' := by
  have hm := LineMap.ordered_ofText cs
  rw [Position.lt_iff_toNat]
  exact (LineMap.stands_lt_iff hm ((LineMap.positionOf_eq_ok_iff hm hsize).mp hp)
    ((LineMap.positionOf_eq_ok_iff hm hsize).mp hq)).symm

theorem eq_iff_of_positionOf (hp : (ofText cs).positionOf o = .ok p)
    (hq : (ofText cs).positionOf o' = .ok q) : p = q ↔ o = o' := by
  constructor
  · rintro rfl
    rw [positionOf_iff_offsetOf hsize] at hp hq
    exact Except.ok.inj (hp.symm.trans hq)
  · rintro rfl
    exact Except.ok.inj (hp.symm.trans hq)

theorem le_iff_of_positionOf (hp : (ofText cs).positionOf o = .ok p)
    (hq : (ofText cs).positionOf o' = .ok q) : p ≤ q ↔ o ≤ o' := by
  rw [Position.le_iff_lt_or_eq, lt_iff_of_positionOf hsize hp hq, eq_iff_of_positionOf hsize hp hq,
    Nat.le_iff_lt_or_eq]

theorem compare_of_positionOf (hp : (ofText cs).positionOf o = .ok p)
    (hq : (ofText cs).positionOf o' = .ok q) : compare p q = compare o o' := by
  show compareOfLessAndEq p q = compareOfLessAndEq o o'
  simp only [compareOfLessAndEq, lt_iff_of_positionOf hsize hp hq, eq_iff_of_positionOf hsize hp hq]

end

theorem exists_positionOf_iff :
    (∃ p, (ofText cs).positionOf o = .ok p) ↔ o ≤ Text.byteLength cs := by
  constructor
  · rintro ⟨p, hp⟩
    by_contra hle
    have hnone : (ofText cs).positionOf o = .error (.offsetBeyondText o (Text.byteLength cs)) :=
      if_neg hle
    rw [hnone] at hp
    cases hp
  · intro hle
    obtain ⟨line, column, -, hfound⟩ := LineMap.exists_stands (LineMap.ordered_ofText cs) hle
    exact ⟨_, hfound⟩

theorem exists_rangeOf_iff (hsize : Text.byteLength cs < UInt32.size) :
    (∃ r, (ofText cs).rangeOf o o' = .ok r) ↔ o ≤ o' ∧ o' ≤ Text.byteLength cs := by
  constructor
  · rintro ⟨r, hr⟩
    obtain ⟨hstart, hstop⟩ := rangeOf_eq_ok_iff.mp hr
    exact ⟨(le_iff_of_positionOf hsize hstart hstop).mp r.start_le_stop,
      exists_positionOf_iff.mp ⟨_, hstop⟩⟩
  · rintro ⟨hle, hlen⟩
    obtain ⟨p, hp⟩ := exists_positionOf_iff.mpr (Nat.le_trans hle hlen)
    obtain ⟨q, hq⟩ := exists_positionOf_iff.mpr hlen
    exact ⟨⟨p, q, (le_iff_of_positionOf hsize hp hq).mpr hle⟩, rangeOf_eq_ok_iff.mpr ⟨hp, hq⟩⟩

/-- In a text whose lines and columns fit into 32 bits, offsets and positions are the same in other
words. The offsets that have a position are those up to the end of the text. An offset is at a
position if and only if the position is at the offset, so that each direction undoes the other and
every position that is accepted is reached. Positions are in the order of their offsets. A range is
found between two offsets if and only if they are in order and in the text. -/
theorem offsets_are_positions (cs : List Char) (hsize : Text.byteLength cs < UInt32.size) :
    (∀ o, (∃ p, (ofText cs).positionOf o = .ok p) ↔ o ≤ Text.byteLength cs) ∧
    (∀ o p, (ofText cs).positionOf o = .ok p ↔ (ofText cs).offsetOf p = .ok o) ∧
    (∀ o o' p q, (ofText cs).positionOf o = .ok p → (ofText cs).positionOf o' = .ok q →
      (p < q ↔ o < o') ∧ compare p q = compare o o') ∧
    ∀ start stop, (∃ r, (ofText cs).rangeOf start stop = .ok r) ↔
      start ≤ stop ∧ stop ≤ Text.byteLength cs := by
  refine ⟨fun o => exists_positionOf_iff, fun o p => positionOf_iff_offsetOf hsize, ?_,
    fun start stop => exists_rangeOf_iff hsize⟩
  intro o o' p q hp hq
  exact ⟨lt_iff_of_positionOf hsize hp hq, compare_of_positionOf hsize hp hq⟩

/-- The line feed behind a carriage return, and the end of a text of three lines. -/
theorem the_end_comes_after_a_line_feed :
    let l := ofText "a\r\n\nb".toList
    Text.byteLength "a\r\n\nb".toList < UInt32.size ∧ l.positionOf 2 = .ok ⟨0, 2⟩ ∧
      l.positionOf 5 = .ok ⟨2, 1⟩ ∧ l.offsetOf ⟨2, 1⟩ = .ok 5 ∧
      compare (Position.mk 0 2) ⟨2, 1⟩ = compare 2 5 := by
  intro l
  have hsize : Text.byteLength "a\r\n\nb".toList < UInt32.size := by decide
  have hfeed : l.positionOf 2 = .ok ⟨0, 2⟩ := by rfl
  have hend : l.positionOf 5 = .ok ⟨2, 1⟩ := by rfl
  obtain ⟨-, hinverse, horder, -⟩ := offsets_are_positions _ hsize
  exact ⟨hsize, hfeed, hend, (hinverse 5 _).mp hend, (horder 2 5 _ _ hfeed hend).2⟩

end Locator

end Pddl
