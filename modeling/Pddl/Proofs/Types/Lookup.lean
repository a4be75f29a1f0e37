/-
  Pddl.Proofs.Types.Lookup — what an object declaration says is found in its catalog.

  Objects are told apart by their names without regard to case. A catalog is asked for the type of
  an object by going through its entries, while the objects are spread over the entries by their
  types.
  - `typeOf?_ofLog`: of a log, the answer is the first type for which it lists the object;
  - `eq_of_sameName`: if no object is declared twice, only one declaration lists it;
  - `declared_objects_are_found`: so the type is found under its first spelling, nothing is found
    for a name that was not declared, and the objects of a type are those declared with it.
-/

import Mathlib.Data.List.Pairwise
import Pddl.Proofs.Types.Groups
import Pddl.Proofs.Types.Objects

namespace Pddl.Catalog

variable {log : List Entry} {d e : Entry} {object other type : String}

theorem mem_listed :
    object ∈ listed log type ↔
      ∃ d ∈ log, Text.sameName d.type type = true ∧ object ∈ d.objects := by
  unfold listed
  simp only [List.mem_flatMap, List.mem_filter, and_assoc]

/-- The type of an object is the first for which the log lists it. -/
theorem typeOf?_ofLog (log : List Entry) (object : String) :
    (ofLog log).typeOf? object =
      (spellings log).find? fun s => (listed log s).any (Text.sameName · object) := by
  have hhas : ∀ s, (entryOf log s).has object = (listed log s).any (Text.sameName · object) := by
    intro s
    unfold entryOf Entry.has
    rw [Bool.eq_iff_iff, List.any_eq_true, List.any_eq_true]
    simp only [List.mem_eraseDups]
  unfold typeOf? ofLog
  rw [List.find?_map, Option.map_map]
  show ((spellings log).find? fun s => (entryOf log s).has object).map (fun s => s) = _
  simp only [hhas, Option.map_id']

/-- A type is found under its first spelling. -/
theorem find?_spellings (log : List Entry) (type : String) :
    (spellings log).find? (Text.sameName · type) =
      (log.map (·.type)).find? (Text.sameName · type) := by
  unfold spellings
  apply find?_eraseDupsBy
  intro a b h
  unfold Text.sameName
  rw [Text.sameName_iff.mp h]

/-- What no declaration lists has no type. -/
theorem typeOf?_eq_none
    (h : ∀ d ∈ log, ∀ o ∈ d.objects, Text.sameName object o = false) :
    (ofLog log).typeOf? object = none := by
  rw [typeOf?_ofLog, List.find?_eq_none]
  intro s _ hany
  obtain ⟨o, ho, hsame⟩ := List.any_eq_true.mp hany
  obtain ⟨d, hd, -, ho⟩ := mem_listed.mp ho
  rw [Text.sameName_comm, h d hd o ho] at hsame
  cases hsame

/-! ## Objects that are declared once -/

section

variable (hdistinct : (log.flatMap (·.objects)).Pairwise fun a b => Text.sameName a b = false)

include hdistinct

/-- Only one declaration lists an object. -/
theorem eq_of_sameName (hd : d ∈ log) (he : e ∈ log) (ho : object ∈ d.objects)
    (hx : other ∈ e.objects) (hsame : Text.sameName object other = true) : d = e := by
  by_contra hne
  have hacross := (List.pairwise_flatMap.mp hdistinct).2
  have : Std.Symm fun d e : Entry =>
      ∀ a ∈ d.objects, ∀ b ∈ e.objects, Text.sameName a b = false := by
    constructor
    intro d e h a ha b hb
    rw [Text.sameName_comm]
    exact h b hb a ha
  rw [hacross.forall hd he hne object ho other hx] at hsame
  cases hsame

/-- An object is found with the first spelling of the type that it is declared with. -/
theorem typeOf?_of_mem (hd : d ∈ log) (ho : object ∈ d.objects)
    (hsame : Text.sameName other object = true) :
    (ofLog log).typeOf? other = (log.map (·.type)).find? (Text.sameName · d.type) := by
  have hlists : ∀ s, (listed log s).any (Text.sameName · other) = Text.sameName s d.type := by
    intro s
    rw [Bool.eq_iff_iff, List.any_eq_true]
    constructor
    · intro h
      obtain ⟨o, hmem, hother⟩ := h
      obtain ⟨e, he, htype, hmem⟩ := mem_listed.mp hmem
      have hobject := Text.sameName_trans _ _ _ hother hsame
      rw [eq_of_sameName hdistinct hd he ho hmem (Text.sameName_comm o object ▸ hobject),
        Text.sameName_comm]
      exact htype
    · intro h
      refine ⟨object, mem_listed.mpr ⟨d, hd, ?_, ho⟩, ?_⟩
      · rw [Text.sameName_comm]
        exact h
      · rw [Text.sameName_comm]
        exact hsame
  rw [typeOf?_ofLog, ← find?_spellings]
  simp only [hlists]

theorem objectsOf_eq_listed (type : String) : (ofLog log).objectsOf type = listed log type := by
  obtain ⟨hinside, hacross⟩ := List.pairwise_flatMap.mp hdistinct
  have hlisted : (listed log type).Pairwise fun a b => Text.sameName a b = false := by
    apply List.pairwise_flatMap.mpr
    refine ⟨?_, hacross.sublist List.filter_sublist⟩
    intro d hd
    exact hinside d (List.mem_filter.mp hd).1
  rw [objectsOf_ofLog]
  apply eraseDupsBy_of_pairwise
  apply hlisted.imp
  intro a b hne
  apply Bool.eq_false_iff.mpr
  intro hbeq
  rw [eq_of_beq hbeq, Text.sameName_iff.mpr rfl] at hne
  cases hne

end

/-! ## Of declarations -/

def declarations (declaration : List Char) : List Entry :=
  (TypedList.groups declaration).map fun g => ⟨g.type?.getD "object", g.names⟩

/-- If no object is declared twice, in whatever case:
- an object is found, in any case, with the first spelling of the type that it is declared with;
- no type is found for a name that is no object in any case;
- the objects of a type are all those declared with it, in whatever case, in the order in which
  they are declared.
The groups of the declaration are those that the grammar gives. -/
theorem declared_objects_are_found (declaration : List Char)
    (hdistinct : ((declarations declaration).flatMap (·.objects)).Pairwise
      fun a b => Text.sameName a b = false) :
    (∀ groups, TypedList.Reads (TypedList.wordsOf declaration) groups ↔
      groups = TypedList.groups declaration) ∧
    (∀ d ∈ declarations declaration, ∀ object ∈ d.objects, ∀ other,
      Text.sameName other object = true →
      ∃ spelling, ((declarations declaration).map (·.type)).find? (Text.sameName · d.type) =
          some spelling ∧
        (ofText declaration).typeOf? other = some spelling) ∧
    (∀ other, (∀ d ∈ declarations declaration, ∀ object ∈ d.objects,
        Text.sameName other object = false) →
      (ofText declaration).typeOf? other = none) ∧
    ∀ type, (ofText declaration).objectsOf type =
      ((declarations declaration).filter fun d => Text.sameName d.type type).flatMap (·.objects) := by
  have hlog : ofText declaration = ofLog (declarations declaration) := ofText_eq_ofLog declaration
  rw [hlog]
  refine ⟨fun groups => TypedList.reads_iff, ?_, fun other h => typeOf?_eq_none h,
    objectsOf_eq_listed hdistinct⟩
  intro d hd object ho other hsame
  have hfirst : (((declarations declaration).map (·.type)).find?
      (Text.sameName · d.type)).isSome = true := by
    apply List.find?_isSome.mpr
    exact ⟨d.type, List.mem_map_of_mem hd, Text.sameName_iff.mpr rfl⟩
  obtain ⟨spelling, hspelling⟩ := Option.isSome_iff_exists.mp hfirst
  exact ⟨spelling, hspelling, (typeOf?_of_mem hdistinct hd ho hsame).trans hspelling⟩

def cargo : List Char := "t1 - Truck l1 - city t2 - TRUCK p1 -".toList

/-- The second truck is found under the spelling of the first, and the object without a type as
such. -/
theorem the_second_truck_is_a_truck :
    ((declarations cargo).flatMap (·.objects)).Pairwise
      (fun a b => Text.sameName a b = false) ∧
    (ofText cargo).typeOf? "T2" = some "Truck" ∧ (ofText cargo).typeOf? "P1" = some "object" ∧
    (ofText cargo).typeOf? "t3" = none ∧ (ofText cargo).objectsOf "truck" = ["t1", "t2"] := by
  have hcargo : declarations cargo =
      [⟨"Truck", ["t1"]⟩, ⟨"city", ["l1"]⟩, ⟨"TRUCK", ["t2"]⟩, ⟨"object", ["p1"]⟩] := by
    decide +kernel
  have hdistinct : ((declarations cargo).flatMap (·.objects)).Pairwise
      fun a b => Text.sameName a b = false := by
    rw [hcargo]
    decide +kernel
  obtain ⟨-, hfound, hnone, hobjects⟩ := declared_objects_are_found cargo hdistinct
  rw [hcargo] at hfound hnone hobjects
  refine ⟨hdistinct, ?_, ?_, hnone "t3" (by decide +kernel), ?_⟩
  · obtain ⟨spelling, hfirst, htype⟩ :=
      hfound ⟨"TRUCK", ["t2"]⟩ (by decide) "t2" (by decide) "T2" (by decide +kernel)
    rw [htype, ← hfirst]
    decide +kernel
  · obtain ⟨spelling, hfirst, htype⟩ :=
      hfound ⟨"object", ["p1"]⟩ (by decide) "p1" (by decide) "P1" (by decide +kernel)
    rw [htype, ← hfirst]
    decide +kernel
  · rw [hobjects]
    decide +kernel

end Pddl.Catalog
