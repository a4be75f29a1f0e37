/-
  Pddl.Proofs.Position.Columns — what lines and columns count.

  The lines of a text are the pieces between its line feeds (`Text.byteLines`). Each starts behind
  the lines in front of it and their line feeds (`Text.fed`).
  - `startsFrom_eq_lineOffsets`: the line map has the start of every line;
  - `stands_ofText_iff`: in front of an offset are whole lines and the first bytes of its own;
  - `Stands.counts`: so its line is the number of line feeds in front of it, and its column the
    number of bytes since the last of them;
  - `Stands.partitionPoint_iff`: the lines that start at or before an offset come first, and there
    is at least one;
  - `positions_count_feeds_and_bytes`: both directions of the look-up in these words.
-/

import Mathlib.Data.List.Basic
import Pddl.Proofs.Position.Offsets
import Pddl.Proofs.Text.Utf8

namespace Pddl

namespace Text

variable {bytes line w : List UInt8} {lines before after : List (List UInt8)}

/-! ## Lines of bytes -/

def byteLines (bytes : List UInt8) : List (List UInt8) := bytes.splitOn 0x0A

/-- The bytes of lines with other lines behind them: each has its line feed. -/
def fed (lines : List (List UInt8)) : List UInt8 := lines.flatMap (· ++ [0x0A])

theorem feed_not_mem_line (h : line ∈ byteLines bytes) : 0x0A ∉ line := by
  unfold byteLines at h
  induction bytes generalizing line with
  | nil =>
    obtain rfl : line = [] := by simpa using h
    exact List.not_mem_nil
  | cons b bytes ih =>
    rw [List.splitOn_cons_eq_if_modifyHead] at h
    split at h
    · rcases List.mem_cons.mp h with rfl | h
      · exact List.not_mem_nil
      · exact ih h
    · rename_i hb
      obtain ⟨first, more, hlines⟩ := List.exists_cons_of_ne_nil (List.splitOn_ne_nil 0x0A bytes)
      rw [hlines, List.modifyHead_cons] at h
      rw [hlines] at ih
      rcases List.mem_cons.mp h with rfl | h
      · have hfirst := ih List.mem_cons_self
        simpa [hfirst] using Ne.symm (by simpa using hb)
      · exact ih (List.mem_cons_of_mem _ h)

theorem exists_split {n : Nat} (h : lines[n]? = some line) :
    ∃ before after, lines = before ++ line :: after ∧ before.length = n := by
  obtain ⟨hn, rfl⟩ := List.getElem?_eq_some_iff.mp h
  refine ⟨lines.take n, lines.drop (n + 1), ?_, List.length_take_of_le (Nat.le_of_lt hn)⟩
  rw [← List.drop_eq_getElem_cons hn, List.take_append_drop]

theorem intercalate_cons (line : List UInt8) (after : List (List UInt8)) :
    [0x0A].intercalate (line :: after) = line ++ after.flatMap (0x0A :: ·) := by
  induction after generalizing line with
  | nil => simp
  | cons next after ih =>
    rw [List.intercalate_cons_of_ne_nil (List.cons_ne_nil next after), ih next]
    simp

theorem intercalate_append_cons (before after : List (List UInt8)) (line : List UInt8) :
    [0x0A].intercalate (before ++ line :: after) =
      fed before ++ (line ++ after.flatMap (0x0A :: ·)) := by
  induction before with
  | nil => exact intercalate_cons line after
  | cons first before ih =>
    rw [List.cons_append, List.intercalate_cons_of_ne_nil (by simp), ih]
    simp [fed]

/-- Bytes in front of a text belong to its first line if none is a line feed. -/
theorem byteLines_append (h : 0x0A ∉ w) (hlines : byteLines bytes = line :: after) :
    byteLines (w ++ bytes) = (w ++ line) :: after := by
  induction w with
  | nil => exact hlines
  | cons b w ih =>
    rw [List.mem_cons, not_or] at h
    have hb : ¬ (b == 0x0A) = true := by simpa using Ne.symm h.1
    have := ih h.2
    unfold byteLines at this ⊢
    rw [List.cons_append, List.splitOn_cons_eq_if_modifyHead, if_neg hb, this]
    rfl

theorem length_byteLines (bytes : List UInt8) :
    (byteLines bytes).length = bytes.count 0x0A + 1 := by
  unfold byteLines
  induction bytes with
  | nil => rfl
  | cons b bytes ih =>
    rw [List.splitOn_cons_eq_if_modifyHead, List.count_cons]
    split
    · rw [List.length_cons, ih]
    · rw [List.length_modifyHead, ih]

theorem count_fed (h : ∀ line ∈ lines, 0x0A ∉ line) :
    (fed lines).count 0x0A = lines.length := by
  induction lines with
  | nil => rfl
  | cons line lines ih =>
    have hline := List.count_eq_zero_of_not_mem (h line List.mem_cons_self)
    have hlines := ih fun other hother => h other (List.mem_cons_of_mem _ hother)
    have hcons : fed (line :: lines) = line ++ ([0x0A] ++ fed lines) := by simp [fed]
    rw [hcons, List.count_append, List.count_append, hline, hlines, List.count_singleton_self,
      List.length_cons]
    omega

theorem length_fed_cons (line : List UInt8) (lines : List (List UInt8)) :
    (fed (line :: lines)).length = line.length + 1 + (fed lines).length := by
  simp only [fed, List.flatMap_cons, List.length_append, List.length_singleton]

/-- A text is its lines with a line feed behind each but the last. -/
theorem eq_of_byteLines (h : byteLines bytes = before ++ line :: after) :
    bytes = fed before ++ (line ++ after.flatMap (0x0A :: ·)) := by
  rw [← intercalate_append_cons, ← h]
  exact (List.intercalate_splitOn 0x0A).symm

def sinceFeed (bytes : List UInt8) : List UInt8 := (bytes.reverse.takeWhile (· != 0x0A)).reverse

theorem sinceFeed_fed (lines : List (List UInt8)) (hw : 0x0A ∉ w) :
    sinceFeed (fed lines ++ w) = w := by
  have hall : ∀ b ∈ w.reverse, (b != 0x0A) = true := by
    intro b hb
    rw [bne_iff_ne]
    exact ne_of_mem_of_not_mem (List.mem_reverse.mp hb) hw
  have hstop : (fed lines).reverse.takeWhile (· != 0x0A) = [] := by
    rcases List.eq_nil_or_concat lines with rfl | ⟨before, line, rfl⟩
    · rfl
    · simp [fed]
  rw [sinceFeed, List.reverse_append, List.takeWhile_append_of_pos hall, hstop, List.append_nil,
    List.reverse_reverse]

end Text

namespace LineMap

open Text (byteLines fed sinceFeed)

/-! ## Where lines start -/

/-- Where lines start that stand one behind the other, the first of them at an offset. -/
def lineOffsets (here : Nat) : List (List UInt8) → List Nat
  | [] => []
  | line :: lines => here :: lineOffsets (here + line.length + 1) lines

variable {cs : List Char} {before after : List (List UInt8)} {line : List UInt8}
  {number column offset : Nat} {m : LineMap}

theorem startsFrom_eq_lineOffsets (here : Nat) (cs : List Char) :
    here :: startsFrom here cs = lineOffsets here (byteLines (Text.encode cs)) := by
  induction cs generalizing here with
  | nil => rfl
  | cons c cs ih =>
    obtain ⟨line, more, hlines⟩ :=
      List.exists_cons_of_ne_nil (List.splitOn_ne_nil (0x0A : UInt8) (Text.encode cs))
    by_cases hc : c = '\n'
    · subst hc
      have hfirst : byteLines (Text.encode ('\n' :: cs)) = [] :: byteLines (Text.encode cs) := by
        rw [Text.encode_cons_ascii (by decide)]
        exact List.splitOn_append_cons_self_of_not_mem List.not_mem_nil (Text.encode cs)
      rw [hfirst, lineOffsets, ← ih]
      rfl
    · have hfeed : 0x0A ∉ String.utf8EncodeChar c := by
        intro hmem
        exact hc (Text.eq_of_mem_utf8EncodeChar (by decide) hmem)
      have hnext := ih (here + c.utf8Size)
      have hsame : byteLines (Text.encode (c :: cs)) = (String.utf8EncodeChar c ++ line) :: more :=
        Text.byteLines_append hfeed hlines
      rw [byteLines, hlines, lineOffsets] at hnext
      rw [hsame, lineOffsets, startsFrom, if_neg hc, (List.cons.inj hnext).2, List.length_append,
        String.length_utf8EncodeChar, Nat.add_assoc here]

theorem getElem?_lineOffsets (here : Nat) (before after : List (List UInt8)) (line : List UInt8) :
    (lineOffsets here (before ++ line :: after))[before.length]? =
      some (here + (fed before).length) := by
  induction before generalizing here with
  | nil => rfl
  | cons first before ih =>
    rw [List.cons_append, lineOffsets, List.length_cons, List.getElem?_cons_succ, ih,
      Text.length_fed_cons]
    congr 1
    omega

theorem getElem?_lineOffsets_succ (here : Nat) (before after : List (List UInt8))
    (line : List UInt8) :
    (lineOffsets here (before ++ line :: after))[before.length + 1]? =
      after.head?.map fun _ => here + (fed before).length + line.length + 1 := by
  induction before generalizing here with
  | nil => cases after <;> rfl
  | cons first before ih =>
    rw [List.cons_append, lineOffsets, List.length_cons, List.getElem?_cons_succ, ih,
      Text.length_fed_cons]
    congr 1
    funext _
    omega

theorem length_lineOffsets (here : Nat) (lines : List (List UInt8)) :
    (lineOffsets here lines).length = lines.length := by
  induction lines generalizing here with
  | nil => rfl
  | cons line lines ih => rw [lineOffsets, List.length_cons, List.length_cons, ih]

theorem starts_ofText (cs : List Char) :
    (ofText cs).starts = lineOffsets 0 (byteLines (Text.encode cs)) :=
  startsFrom_eq_lineOffsets 0 cs

/-- A line stops behind its own bytes. -/
theorem lineStop_ofText (h : byteLines (Text.encode cs) = before ++ line :: after) :
    (ofText cs).lineStop before.length = (fed before).length + line.length := by
  have hnext := getElem?_lineOffsets_succ 0 before after line
  rw [← h, ← starts_ofText] at hnext
  rw [lineStop, hnext]
  cases after with
  | nil =>
    show Text.byteLength cs = _
    rw [← Text.length_encode, Text.eq_of_byteLines h]
    simp
  | cons next after =>
    show 0 + (fed before).length + line.length + 1 - 1 = _
    omega

/-! ## What is in front of an offset -/

/-- An offset stands behind the lines in front of its line and the bytes of its own column. -/
theorem stands_ofText_iff : (ofText cs).Stands number column offset ↔
    ∃ before line after, byteLines (Text.encode cs) = before ++ line :: after ∧
      before.length = number ∧ column ≤ line.length ∧ offset = (fed before).length + column := by
  constructor
  · rintro ⟨start, hstart, hoffset, hstop⟩
    have hnumber : number < (byteLines (Text.encode cs)).length := by
      rw [← length_lineOffsets 0, ← starts_ofText]
      exact (List.getElem?_eq_some_iff.mp hstart).1
    obtain ⟨before, after, hlines, rfl⟩ := Text.exists_split (List.getElem?_eq_getElem hnumber)
    generalize (byteLines (Text.encode cs))[before.length] = line at hlines
    have hfound := getElem?_lineOffsets 0 before after line
    rw [← hlines, ← starts_ofText, hstart, Option.some.injEq] at hfound
    rw [lineStop_ofText hlines] at hstop
    exact ⟨before, line, after, hlines, rfl, by omega, by omega⟩
  · rintro ⟨before, line, after, h, rfl, hcolumn, rfl⟩
    have hstart := getElem?_lineOffsets 0 before after line
    rw [← h, ← starts_ofText, Nat.zero_add] at hstart
    refine ⟨_, hstart, rfl, ?_⟩
    rw [lineStop_ofText h]
    omega

/-- In front of an offset are as many line feeds as lines, and behind the last of them as many bytes
as columns. -/
theorem Stands.counts (h : (ofText cs).Stands number column offset) :
    ((Text.encode cs).take offset).count 0x0A = number ∧
      (sinceFeed ((Text.encode cs).take offset)).length = column := by
  obtain ⟨before, line, after, hlines, rfl, hcolumn, rfl⟩ := stands_ofText_iff.mp h
  have hfront : ∀ other ∈ before, 0x0A ∉ other := fun other hother =>
    Text.feed_not_mem_line (hlines ▸ List.mem_append_left _ hother)
  have hline : 0x0A ∉ line :=
    Text.feed_not_mem_line (hlines ▸ List.mem_append_right before List.mem_cons_self)
  have hcut : 0x0A ∉ line.take column := fun hmem => hline (List.mem_of_mem_take hmem)
  have htake : (Text.encode cs).take ((fed before).length + column) =
      fed before ++ line.take column := by
    rw [Text.eq_of_byteLines hlines, List.take_length_add_append,
      List.take_append_of_le_length hcolumn]
  rw [htake, List.count_append, Text.count_fed hfront, List.count_eq_zero_of_not_mem hcut,
    Text.sinceFeed_fed before hcut, List.length_take_of_le hcolumn]
  exact ⟨rfl, rfl⟩

/-- A line has an offset for each of its columns, the one behind its last byte included. -/
theorem exists_stands_iff : (∃ offset, (ofText cs).Stands number column offset) ↔
    ∃ line, (byteLines (Text.encode cs))[number]? = some line ∧ column ≤ line.length := by
  constructor
  · rintro ⟨offset, h⟩
    obtain ⟨before, line, after, hlines, rfl, hcolumn, -⟩ := stands_ofText_iff.mp h
    refine ⟨line, ?_, hcolumn⟩
    rw [hlines, List.getElem?_append_right (Nat.le_refl _), Nat.sub_self]
    rfl
  · rintro ⟨line, hline, hcolumn⟩
    obtain ⟨before, after, hlines, hbefore⟩ := Text.exists_split hline
    exact ⟨_, stands_ofText_iff.mpr ⟨before, line, after, hlines, hbefore, hcolumn, rfl⟩⟩

/-! ## The point where lines start behind an offset -/

/-- The starts up to this index are the ones at or before the offset. -/
def PartitionPoint (starts : List Nat) (offset k : Nat) : Prop :=
  k ≤ starts.length ∧ ∀ i start, starts[i]? = some start → (i < k ↔ start ≤ offset)

theorem Stands.partitionPoint_iff (hm : m.Ordered) (h : m.Stands number column offset) {k : Nat} :
    PartitionPoint m.starts offset k ↔ k = number + 1 := by
  obtain ⟨start, hstart, hoffset, hstop⟩ := h
  obtain ⟨hnumber, -⟩ := List.getElem?_eq_some_iff.mp hstart
  have hpoint : ∀ i other, m.starts[i]? = some other → (i < number + 1 ↔ other ≤ offset) := by
    intro i other hother
    rcases Nat.lt_trichotomy i number with hlt | rfl | hgt
    · have := hm.start_lt hother hstart hlt
      omega
    · obtain rfl : other = start := Option.some.inj (hother.symm.trans hstart)
      omega
    · have := hm.lineStop_lt hother hgt
      omega
  constructor
  · rintro ⟨hle, hk⟩
    have hlast := (hk number start hstart).mpr (by omega)
    by_contra hne
    have hindex : number + 1 < m.starts.length := by omega
    have hnext := List.getElem?_eq_getElem hindex
    have := (hpoint _ _ hnext).mpr ((hk _ _ hnext).mp (by omega))
    omega
  · rintro rfl
    exact ⟨hnumber, hpoint⟩

/-! ## Lines and columns -/

/-- Positions count line feeds and bytes, in a text of fewer than 2^32 bytes. Every offset up to the
end has a position: the line is the number of line feeds in front of the offset, the column the
number of bytes since the last of them. No step to it leaves its bounds: the starts at or before the
offset come first, the last of them exists, and the column is counted from it. An offset behind the
end has none. A position has an offset if and only if the text has as many line feeds as its line
says and the line has as many bytes as its column says; no start but the first is zero, and a start
and a column add up within their word. -/
theorem positions_count_feeds_and_bytes (cs : List Char)
    (hsize : Text.byteLength cs < UInt32.size) :
    (∀ o ≤ (Text.encode cs).length, ∃ p start, (ofText cs).positionOf o = .ok p ∧
      p.line.toNat = ((Text.encode cs).take o).count 0x0A ∧
      p.column.toNat = (sinceFeed ((Text.encode cs).take o)).length ∧
      (∀ k, PartitionPoint (ofText cs).starts o k ↔ k = p.line.toNat + 1) ∧
      (ofText cs).starts[p.line.toNat]? = some start ∧ o = start + p.column.toNat) ∧
    (∀ o, (Text.encode cs).length < o →
      (ofText cs).positionOf o = .error (.offsetBeyondText o (Text.encode cs).length)) ∧
    (∀ p, (∃ o, (ofText cs).offsetOf p = .ok o) ↔
      p.line.toNat ≤ (Text.encode cs).count 0x0A ∧
        ∃ line, (byteLines (Text.encode cs))[p.line.toNat]? = some line ∧
          p.column.toNat ≤ line.length) ∧
    (∀ line next, (ofText cs).starts[line + 1]? = some next → 0 < next) ∧
    ∀ (line : Nat) (column : UInt32) start, (ofText cs).starts[line]? = some start →
      start + column.toNat < UInt64.size := by
  have hm := ordered_ofText cs
  have hlength := Text.length_encode cs
  refine ⟨?_, ?_, ?_, ?_, ?_⟩
  · intro o ho
    obtain ⟨p, hp⟩ := Locator.exists_positionOf_iff.mpr (hlength ▸ ho)
    have hstands := (positionOf_eq_ok_iff hm hsize).mp hp
    obtain ⟨hline, hcolumn⟩ := hstands.counts
    obtain ⟨start, hstart, hoffset, -⟩ := id hstands
    exact ⟨p, start, hp, hline.symm, hcolumn.symm, fun k => hstands.partitionPoint_iff hm, hstart,
      hoffset⟩
  · intro o ho
    rw [hlength] at ho ⊢
    exact if_neg (Nat.not_le.mpr ho)
  · intro p
    simp only [offsetOf_eq_ok_iff, exists_stands_iff]
    constructor
    · rintro ⟨line, hline, hcolumn⟩
      have hbound := (List.getElem?_eq_some_iff.mp hline).1
      rw [Text.length_byteLines] at hbound
      exact ⟨Nat.le_of_lt_succ hbound, line, hline, hcolumn⟩
    · exact fun h => h.2
  · intro line next hnext
    exact hm.start_lt hm.first hnext (Nat.succ_pos line)
  · intro line column start hstart
    have hwithin : start ≤ Text.byteLength cs := hm.within start (List.mem_of_getElem? hstart)
    have hcolumn : column.toNat < UInt32.size := column.toNat_lt
    have : UInt32.size + UInt32.size < UInt64.size := by decide
    omega

/-- Two line feeds in a row, the first behind a carriage return, and one at the end of the text. -/
theorem a_last_line_feed_starts_a_line :
    let cs := "é\r\n\n(b\n".toList
    Text.byteLength cs < UInt32.size ∧
      (∃ p, (ofText cs).positionOf 3 = .ok p ∧ p.line.toNat = 0 ∧ p.column.toNat = 3) ∧
      (∃ p, (ofText cs).positionOf 8 = .ok p ∧ p.line.toNat = 3 ∧ p.column.toNat = 0) ∧
      (ofText cs).positionOf 9 = .error (.offsetBeyondText 9 8) ∧
      (∃ o, (ofText cs).offsetOf ⟨0, 3⟩ = .ok o) ∧ ¬ ∃ o, (ofText cs).offsetOf ⟨1, 1⟩ = .ok o := by
  intro cs
  have hsize : Text.byteLength cs < UInt32.size := by decide
  obtain ⟨hfound, hbehind, hoffsets, -⟩ := positions_count_feeds_and_bytes cs hsize
  obtain ⟨p, -, hp, hpline, hpcolumn, -⟩ := hfound 3 (by decide)
  obtain ⟨q, -, hq, hqline, hqcolumn, -⟩ := hfound 8 (by decide)
  refine ⟨hsize, ⟨p, hp, hpline.trans (by decide), hpcolumn.trans (by decide)⟩,
    ⟨q, hq, hqline.trans (by decide), hqcolumn.trans (by decide)⟩, hbehind 9 (by decide), ?_, ?_⟩
  · exact (hoffsets _).mpr ⟨by decide, _, rfl, by decide⟩
  · intro h
    obtain ⟨-, line, hline, hcolumn⟩ := (hoffsets _).mp h
    obtain rfl : [] = line := Option.some.inj hline
    exact absurd hcolumn (by decide)

end LineMap

end Pddl
