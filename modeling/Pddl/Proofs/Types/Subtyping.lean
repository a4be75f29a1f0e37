/-
  Pddl.Proofs.Types.Subtyping — when a type of a domain is a subtype of another.

  A type is asked for by looking up from the subtype (`isSubtype`) or down from its parent
  (`subtypesOf`). Both are answered by searches of the graph of types, in opposite directions, and
  both agree with the ways along its edges:
  - `Hierarchy.isSubtype_iff`: a type is a subtype of itself, and of what edges lead to;
  - `Domain.types_of_read`: the types of a domain that was read are the hierarchy of its
    declaration;
  - `subtyping_is_preorder`: so subtyping is a preorder, the two questions have one answer, and
    the root is above every type unless the declaration goes in a circle.
-/

import Pddl.Domain
import Pddl.Proofs.Types.Inheritance
import Pddl.Proofs.Types.Search

namespace Pddl

open Relation (TransGen)

def Source.DeclaresType (s : Source) (child parent : String) : Prop :=
  ∃ d declaration, Definition.find? s.tree "domain" = some d ∧
    d.body? s.tree ":types" = .ok (some declaration) ∧
    TypedList.Declares declaration child parent

namespace Hierarchy

variable {g : Digraph} {x y z : String}

theorem isSubtype_iff (hg : g.WellDrawn) :
    isSubtype g x y = true ↔ x = y ∨ TransGen g.Edge x y := by
  unfold isSubtype
  rw [Bool.or_eq_true, beq_iff_eq, hg.leadsTo_iff]
  constructor
  · rintro (e | ⟨-, hway⟩)
    · exact .inl e
    · exact .inr hway
  · rintro (e | hway)
    · exact .inl e
    · by_cases e : x = y
      · exact .inl e
      · exact .inr ⟨fun e' => e e'.symm, hway⟩

theorem isSubtype_trans (hg : g.WellDrawn) (hxy : isSubtype g x y = true)
    (hyz : isSubtype g y z = true) : isSubtype g x z = true := by
  rw [isSubtype_iff hg] at hxy hyz ⊢
  rcases hxy with rfl | hxy
  · exact hyz
  · rcases hyz with rfl | hyz
    · exact .inr hxy
    · exact .inr (hxy.trans hyz)

/-- What leads to a type are its subtypes but itself, all of them vertices. -/
theorem mem_reaching_iff (hg : g.WellDrawn) :
    x ∈ g.reaching y ↔ x ∈ g.vertices ∧ x ≠ y ∧ isSubtype g x y = true := by
  rw [hg.mem_reaching, isSubtype_iff hg]
  constructor
  · rintro ⟨hne, hway⟩
    -- the first edge of the way leaves the subtype
    obtain ⟨_, hedge, -⟩ := Relation.TransGen.head'_iff.mp hway
    exact ⟨(hg.mem_of_edge hedge).1, hne, .inr hway⟩
  · rintro ⟨-, hne, e | hway⟩
    · exact absurd e hne
    · exact ⟨hne, hway⟩

end Hierarchy

namespace Domain

variable {root : String} {s : Source} {d : Domain}

/-- The types of a domain that was read are none, or the hierarchy of its type declaration. -/
theorem types_of_read (h : Domain.read root s = .ok (some d)) :
    d.types = Digraph.empty ∨
      ∃ definition declaration, Definition.find? s.tree "domain" = some definition ∧
        definition.body? s.tree ":types" = .ok (some declaration) ∧
        d.types = Hierarchy.ofText root declaration := by
  unfold Domain.read at h
  split at h
  · cases h
  rename_i definition hfind
  cases htypes : definition.body? s.tree ":types" with
  | error => simp [htypes, bind, Except.bind] at h
  | ok types? =>
    cases hconstants : definition.body? s.tree ":constants" with
    | error => simp [htypes, hconstants, bind, Except.bind] at h
    | ok constants? =>
      cases hrange : definition.nameRange? s.locator with
      | error => simp [htypes, hconstants, hrange, bind, Except.bind] at h
      | ok range? =>
        simp only [htypes, hconstants, hrange, bind, Except.bind, pure, Except.pure,
          Except.ok.injEq, Option.some.injEq] at h
        rw [← h]
        cases types? with
        | none => exact .inl rfl
        | some declaration => exact .inr ⟨definition, declaration, hfind, htypes, rfl⟩

theorem wellDrawn_types (h : Domain.read root s = .ok (some d)) : d.types.WellDrawn := by
  rcases types_of_read h with e | ⟨_, declaration, -, -, e⟩
  · rw [e]
    exact Digraph.wellDrawn_empty
  · rw [e]
    exact Hierarchy.wellDrawn_ofText root declaration

/-- If no type is declared above itself, every type that was read is a subtype of the root. -/
theorem isSubtype_root (h : Domain.read root s = .ok (some d))
    (hacyclic : ∀ x, ¬ TransGen s.DeclaresType x x) {x : String} (hx : x ∈ d.types.vertices) :
    d.isSubtype x root = true := by
  have hg := wellDrawn_types h
  rcases types_of_read h with e | ⟨definition, declaration, hfind, hbody, e⟩
  · rw [e] at hx
    cases hx
  · apply (Hierarchy.isSubtype_iff hg).mpr
    rw [e] at hx ⊢
    refine Hierarchy.reaches_root ?_ hx
    intro y hcycle
    apply hacyclic y
    exact hcycle.lift id fun child parent hdeclares =>
      ⟨definition, declaration, hfind, hbody, hdeclares⟩

/-- Of the types of a domain that was read with a root:
- a type is a subtype of another if it is the same, or if edges from child to parent lead from the
  one to the other;
- so subtyping is reflexive and transitive, also where types are declared in a circle;
- the subtypes of a type are listed without repetitions, and are all the vertices but itself that
  are subtypes of it;
- if no type is declared above itself, all types are subtypes of the root. -/
theorem subtyping_is_preorder (root : String) (s : Source) (d : Domain)
    (h : Domain.read root s = .ok (some d)) :
    (∀ x y, d.isSubtype x y = true ↔ x = y ∨ TransGen d.types.Edge x y) ∧
    (∀ x, d.isSubtype x x = true) ∧
    (∀ x y z, d.isSubtype x y = true → d.isSubtype y z = true → d.isSubtype x z = true) ∧
    (∀ y, (d.subtypesOf y).Nodup ∧ ∀ x, x ∈ d.subtypesOf y ↔
      x ∈ d.types.vertices ∧ x ≠ y ∧ d.isSubtype x y = true) ∧
    ((∀ x, ¬ TransGen s.DeclaresType x x) →
      ∀ x ∈ d.types.vertices, d.isSubtype x root = true) := by
  have hg := wellDrawn_types h
  refine ⟨?_, ?_, ?_, ?_, ?_⟩
  · intro x y
    exact Hierarchy.isSubtype_iff hg
  · intro x
    exact (Hierarchy.isSubtype_iff hg).mpr (.inl rfl)
  · intro x y z hxy hyz
    exact Hierarchy.isSubtype_trans hg hxy hyz
  · intro y
    exact ⟨hg.nodup_reaching y, fun x => Hierarchy.mem_reaching_iff hg⟩
  · intro hacyclic x hx
    exact isSubtype_root h hacyclic hx

def vehiclesText : List Char :=
  "(define (domain d) (:types truck - vehicle vehicle car - thing))".toList

def vehicles : Source :=
  ⟨"file:///w/d.pddl", 1, .pddl, Tree.ofText vehiclesText, Locator.ofText vehiclesText⟩

/-- In that domain types are declared upwards only. -/
theorem acyclic_vehicles (x : String) : ¬ TransGen vehicles.DeclaresType x x := by
  have hbody : (Definition.find? vehicles.tree "domain").all (fun d =>
      match d.body? vehicles.tree ":types" with
      | .ok text? => text? == some " truck - vehicle vehicle car - thing".toList
      | .error _ => false) = true := by decide +kernel
  have hgroups : TypedList.groups " truck - vehicle vehicle car - thing".toList =
      [⟨["truck"], some "vehicle"⟩, ⟨["vehicle", "car"], some "thing"⟩] := by decide +kernel
  let level : String → Nat := fun type =>
    if type = "thing" then 2 else if type = "vehicle" then 1 else 0
  have hup : ∀ child parent, vehicles.DeclaresType child parent → level child < level parent := by
    rintro child parent ⟨d, text, hd, htext, group, hgroup, hchild, hparent⟩
    rw [hd, Option.all_some, htext] at hbody
    obtain rfl : text = " truck - vehicle vehicle car - thing".toList := by simpa using hbody
    rw [hgroups] at hgroup
    simp only [List.mem_cons, List.not_mem_nil, or_false] at hgroup
    rcases hgroup with rfl | rfl
    · simp only [List.mem_cons, List.not_mem_nil, or_false, Option.some.injEq] at hchild hparent
      subst hchild hparent
      decide
    · simp only [List.mem_cons, List.not_mem_nil, or_false, Option.some.injEq] at hchild hparent
      subst hparent
      rcases hchild with rfl | rfl <;> decide
  intro hcycle
  have hlt := hcycle.lift level hup
  rw [Relation.transGen_eq_self] at hlt
  omega

/-- Trucks are objects, two levels up, and are listed below things. -/
theorem trucks_are_objects : ∃ d, Domain.read "object" vehicles = .ok (some d) ∧
    "truck" ∈ d.types.vertices ∧ d.isSubtype "truck" "object" = true ∧
    "truck" ∈ d.subtypesOf "thing" ∧ ¬ d.isSubtype "thing" "truck" = true := by
  have hread : (match Domain.read "object" vehicles with
      | .ok (some d) => decide ("truck" ∈ d.types.vertices) && d.isSubtype "truck" "thing" &&
          !d.isSubtype "thing" "truck"
      | _ => false) = true := by decide +kernel
  split at hread
  · rename_i d hd
    simp only [Bool.and_eq_true, decide_eq_true_eq, Bool.not_eq_true'] at hread
    obtain ⟨⟨hmem, hthing⟩, hnot⟩ := hread
    obtain ⟨-, -, -, hsubtypes, hroot⟩ := subtyping_is_preorder "object" vehicles d hd
    refine ⟨d, hd, hmem, hroot acyclic_vehicles "truck" hmem, ?_, ?_⟩
    · exact ((hsubtypes "thing").2 "truck").mpr ⟨hmem, by decide, hthing⟩
    · rw [hnot]
      exact Bool.false_ne_true
  · cases hread

end Domain

end Pddl
