/-
  Pddl.Proofs.Types.Groups — the grammar of typed lists.

  `Reads` says which groups the words of a list make up: the names in front of a hyphen, with the
  word behind it as their type, and so on; the last group has no type if nothing stands behind
  its hyphen, or if it has none. No name is a hyphen, but a type may be.
  - `reads_groupsFrom`: the groups that are found are read off the words in this way;
  - `reads_iff`: they are the only ones.
-/

import Pddl.TypedList

namespace Pddl.TypedList

variable {declaration : List Char} {names words : List String} {groups : List Group}

inductive Reads : List String → List Group → Prop
  | nothing : Reads [] []
  | untyped {names : List String} : names ≠ [] → "-" ∉ names → Reads names [⟨names, none⟩]
  | dangling {names : List String} : "-" ∉ names → Reads (names ++ ["-"]) [⟨names, none⟩]
  | typed {names words : List String} {type : String} {groups : List Group} : "-" ∉ names →
      Reads words groups → Reads (names ++ "-" :: type :: words) (⟨names, some type⟩ :: groups)

def wordsOf (declaration : List Char) : List String := (Text.words declaration).map String.ofList

theorem groupsFrom_name {word : String} (h : word ≠ "-") (pending words : List String) :
    groupsFrom pending (word :: words) = groupsFrom (pending ++ [word]) words := by
  cases words <;> simp [groupsFrom, h]

/-- Names wait for the hyphen. -/
theorem groupsFrom_names (h : "-" ∉ names) (pending words : List String) :
    groupsFrom pending (names ++ words) = groupsFrom (pending ++ names) words := by
  induction names generalizing pending with
  | nil => simp
  | cons name names ih =>
    simp only [List.mem_cons, not_or] at h
    rw [List.cons_append, groupsFrom_name (Ne.symm h.1), ih h.2, List.append_assoc,
      List.singleton_append]

theorem reads_groupsFrom (pending words : List String) (h : "-" ∉ pending) :
    Reads (pending ++ words) (groupsFrom pending words) := by
  fun_induction groupsFrom pending words with
  | case1 pending hempty =>
    rw [List.isEmpty_iff.mp hempty]
    exact .nothing
  | case2 pending hempty =>
    rw [List.append_nil]
    exact .untyped (by simpa using hempty) h
  | case3 pending => exact .dangling h
  | case4 pending type words ih => exact .typed h (ih (by simp))
  | case5 pending word words hword ih =>
    have hmore : "-" ∉ pending ++ [word] := by simp [h, Ne.symm hword]
    simpa using ih hmore

theorem Reads.eq_groupsFrom (h : Reads words groups) : groups = groupsFrom [] words := by
  induction h with
  | nothing => rfl
  | @untyped names hne hnames =>
    have hpending := groupsFrom_names hnames [] []
    rw [List.append_nil] at hpending
    rw [hpending, List.nil_append, groupsFrom, if_neg (by simpa using hne)]
  | dangling hnames => rw [groupsFrom_names hnames, List.nil_append, groupsFrom, if_pos rfl]
  | typed hnames _ ih =>
    rw [groupsFrom_names hnames, List.nil_append, groupsFrom, if_pos rfl, ← ih]

/-- The groups of a declaration are the only ones that can be read off its words. -/
theorem reads_iff : Reads (wordsOf declaration) groups ↔ groups = TypedList.groups declaration := by
  constructor
  · exact fun h => h.eq_groupsFrom
  · intro h
    rw [h]
    exact reads_groupsFrom [] _ (by simp)

end Pddl.TypedList
