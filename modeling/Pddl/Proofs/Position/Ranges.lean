/-
  Pddl.Proofs.Position.Ranges — the ranges of nodes.

  The range of a node goes from the position of its first byte to the one behind its last. Since
  positions are offsets in other words, ranges lie to each other as the nodes do, and nodes lie one
  in the other or one behind the other (`Forest.nodes_apart`):
  - `exists_rangeOf`: every node has a range, and the range cuts the text of the node out of the
    whole text (`Range.Delimits`);
  - `ranges_are_faithful`: both for all nodes of a text, and for the names that are read from it.
-/

import Pddl.Proofs.Position.Offsets
import Pddl.Proofs.Reading.Sections
import Pddl.Proofs.Syntax.Table

namespace Pddl

/-- The offsets at the ends of the range cut this text out of the whole one. -/
def Range.Delimits (r : Range) (cs text : List Char) : Prop :=
  ∃ start stop, (Locator.ofText cs).offsetOf r.start = .ok start ∧
    (Locator.ofText cs).offsetOf r.stop = .ok stop ∧ Text.slice? start stop cs = some text

/-! ## Cutting out a node -/

namespace Tree

variable {cs : List Char} {m n : Node}

theorem stop_le_length (hn : n ∈ (ofText cs).nodes) : n.stop ≤ Text.byteLength cs := by
  obtain ⟨a, b, hcs, ha⟩ := text_at hn
  rw [hcs, Text.byteLength_append, Text.byteLength_append, ha, ← n.width_eq]
  exact Nat.le_add_right _ _

theorem slice?_node (hn : n ∈ (ofText cs).nodes) :
    Text.slice? n.start n.stop cs = some n.text := by
  obtain ⟨a, b, hcs, ha⟩ := text_at hn
  refine Text.slice?_middle hcs ha ?_
  rw [← n.width_eq]
  rfl

/-! ## Ranges -/

section

variable (hsize : Text.byteLength cs < UInt32.size)

include hsize

/-- Every node has a range, which cuts the text of the node out. -/
theorem exists_rangeOf (hn : n ∈ (ofText cs).nodes) :
    ∃ r, rangeOf (Locator.ofText cs) n = .ok r ∧ r.Delimits cs n.text := by
  obtain ⟨r, hr⟩ := (Locator.exists_rangeOf_iff hsize).mpr
    ⟨Nat.le_add_right n.start n.width, stop_le_length hn⟩
  obtain ⟨hstart, hstop⟩ := Locator.rangeOf_eq_ok_iff.mp hr
  exact ⟨r, hr, n.start, n.stop, (Locator.positionOf_iff_offsetOf hsize).mp hstart,
    (Locator.positionOf_iff_offsetOf hsize).mp hstop, slice?_node hn⟩

theorem encloses_of_within {r r' : Range} (hr : rangeOf (Locator.ofText cs) n = .ok r)
    (hr' : rangeOf (Locator.ofText cs) m = .ok r') (hstart : n.start ≤ m.start)
    (hstop : m.stop ≤ n.stop) : r.encloses r' = true := by
  obtain ⟨hr₁, hr₂⟩ := Locator.rangeOf_eq_ok_iff.mp hr
  obtain ⟨hr'₁, hr'₂⟩ := Locator.rangeOf_eq_ok_iff.mp hr'
  have hle : m.start ≤ m.stop := Nat.le_add_right _ _
  simp only [Range.encloses, Range.contains, Bool.and_eq_true, decide_eq_true_eq,
    Locator.le_iff_of_positionOf hsize hr₁ hr'₁, Locator.le_iff_of_positionOf hsize hr'₁ hr₂,
    Locator.le_iff_of_positionOf hsize hr₁ hr'₂, Locator.le_iff_of_positionOf hsize hr'₂ hr₂]
  omega

theorem precedes_of_stop_le {r r' : Range} (hr : rangeOf (Locator.ofText cs) m = .ok r)
    (hr' : rangeOf (Locator.ofText cs) n = .ok r') (hle : m.stop ≤ n.start) :
    r.precedes r' = true := by
  have hstop := (Locator.rangeOf_eq_ok_iff.mp hr).2
  have hstart := (Locator.rangeOf_eq_ok_iff.mp hr').1
  rw [Range.precedes, decide_eq_true_eq, Locator.le_iff_of_positionOf hsize hstop hstart]
  exact hle

end

end Tree

/-! ## Names -/

/-- The name of a definition has a range, which cuts the name out. -/
theorem Definition.exists_nameRange? {cs : List Char} {keyword : String} {d : Definition}
    (hsize : Text.byteLength cs < UInt32.size) (h : find? (Tree.ofText cs) keyword = some d) :
    ∃ range?, d.nameRange? (Locator.ofText cs) = .ok range? ∧
      ∀ name, d.nameText? = some name → ∃ r, range? = some r ∧ r.Delimits cs name.toList := by
  unfold nameRange? nameText?
  cases hname : d.name? with
  | none =>
    refine ⟨none, rfl, ?_⟩
    rintro _ ⟨⟩
  | some n =>
    obtain ⟨r, hr, hdelimits⟩ := Tree.exists_rangeOf hsize (name_mem h hname)
    refine ⟨some r, by simp only [hr]; rfl, ?_⟩
    rintro name ⟨⟩
    exact ⟨r, rfl, by simpa using hdelimits⟩

/-- What is read of a text is read of a name that has its range. -/
theorem Definition.readAs_named {α : Type} {cs : List Char} {s : Source}
    (hsize : Text.byteLength cs < UInt32.size) (htree : s.tree = Tree.ofText cs)
    (hlocator : s.locator = Locator.ofText cs) (keyword : String)
    (build : Option String → Option Range → Forest → α) :
    ∃ answer?, readAs build keyword s = .ok answer? ∧
      ∀ a, answer? = some a → ∃ name? range? body, a = build name? range? body ∧
        ∀ name, name? = some name → ∃ r, range? = some r ∧ r.Delimits cs name.toList := by
  rw [readAs, hlocator, htree]
  cases hfind : find? (Tree.ofText cs) keyword with
  | none =>
    refine ⟨none, rfl, ?_⟩
    rintro _ ⟨⟩
  | some d =>
    obtain ⟨range?, hrange, hname⟩ := exists_nameRange? hsize hfind
    simp only [hrange]
    refine ⟨_, rfl, ?_⟩
    rintro a ⟨⟩
    exact ⟨_, _, _, rfl, hname⟩

namespace Tree

/-- Ranges are faithful. Every node of a text has one, and taken back to offsets its ends cut out
the text of the node. The range of a node encloses the ranges of the node itself and of all nodes
that it is around; of two nodes that are not around each other the earlier one has its range before
that of the later one. Whatever the text is, reading it as a domain or as a problem gives an answer,
and a name in it comes with the range that cuts out the name. -/
theorem ranges_are_faithful (cs : List Char) (hsize : Text.byteLength cs < UInt32.size) :
    (∀ n ∈ (ofText cs).nodes,
      ∃ r, rangeOf (Locator.ofText cs) n = .ok r ∧ r.Delimits cs n.text) ∧
    (∀ m ∈ (ofText cs).nodes, ∀ n ∈ (ofText cs).nodes, ∀ r r',
      rangeOf (Locator.ofText cs) m = .ok r → rangeOf (Locator.ofText cs) n = .ok r' →
      (n = m ∨ n.id ∈ m.ancestors → r'.encloses r = true) ∧
      (m.id < n.id → m.id ∉ n.ancestors → r.precedes r' = true)) ∧
    ∀ s : Source, s.tree = ofText cs → s.locator = Locator.ofText cs →
      (∀ root, ∃ domain?, Domain.read root s = .ok domain? ∧
        ∀ d, domain? = some d → ∀ name, d.name? = some name →
          ∃ r, d.nameRange? = some r ∧ r.Delimits cs name.toList) ∧
      ∃ problem?, Problem.read s = .ok problem? ∧
        ∀ p, problem? = some p → ∀ name, p.name? = some name →
          ∃ r, p.nameRange? = some r ∧ r.Delimits cs name.toList := by
  refine ⟨fun n hn => exists_rangeOf hsize hn, ?_, ?_⟩
  · intro m hm n hn r r' hr hr'
    refine ⟨?_, fun hlt hnot => precedes_of_stop_le hsize hr hr' (stop_le_start hm hn hlt hnot)⟩
    rintro (rfl | habove)
    · exact encloses_of_within hsize hr' hr (Nat.le_refl _) (Nat.le_refl _)
    · obtain ⟨hstart, hstop⟩ := Node.within_of_mem_descendants ((mem_ancestors_iff hn hm).mp habove)
      exact encloses_of_within hsize hr' hr hstart hstop
  · intro s htree hlocator
    refine ⟨fun root => ?_, ?_⟩
    · rw [Domain.read_eq htree]
      obtain ⟨domain?, hread, hnamed⟩ :=
        Definition.readAs_named hsize htree hlocator "domain" (Domain.ofBody root)
      refine ⟨domain?, hread, fun d hd => ?_⟩
      obtain ⟨name?, range?, body, rfl, hname⟩ := hnamed d hd
      exact hname
    · rw [Problem.read_eq htree]
      obtain ⟨problem?, hread, hnamed⟩ :=
        Definition.readAs_named hsize htree hlocator "problem" Problem.ofBody
      refine ⟨problem?, hread, fun p hp => ?_⟩
      obtain ⟨name?, range?, body, rfl, hname⟩ := hnamed p hp
      exact hname

/-- A name with a character of two bytes, on the second line. -/
theorem a_wide_name_has_its_range :
    let cs := "(define\r\n (domain naïve))".toList
    let s : Source := ⟨"u", 1, .pddl, ofText cs, Locator.ofText cs⟩
    Text.byteLength cs < UInt32.size ∧
      ∃ d r, Domain.read "object" s = .ok (some d) ∧ d.name? = some "naïve" ∧
        d.nameRange? = some r ∧ r.Delimits cs "naïve".toList := by
  intro cs s
  have hsize : Text.byteLength cs < UInt32.size := by decide
  have hnamed : (Domain.read "object" s).toOption.join.bind (·.name?) = some "naïve" := by
    decide +kernel
  obtain ⟨-, -, hreading⟩ := ranges_are_faithful cs hsize
  obtain ⟨domain?, hread, hname⟩ := (hreading s rfl rfl).1 "object"
  rw [hread] at hnamed ⊢
  cases domain? with
  | none => cases hnamed
  | some d =>
    obtain ⟨r, hr, hdelimits⟩ := hname d rfl "naïve" hnamed
    exact ⟨hsize, d, r, rfl, hnamed, hr, hdelimits⟩

end Tree

end Pddl
