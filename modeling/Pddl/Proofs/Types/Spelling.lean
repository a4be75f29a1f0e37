/-
  Pddl.Proofs.Types.Spelling — types in several spellings.

  Names are compared as they are spelled when a hierarchy is drawn and searched, whereas a catalog
  ignores the case of types. The answer that ignores case is that of the hierarchy in which every
  name is written in small letters (`isSubtypeFolded`): respelling a declaration does not change
  it. Each edge of this hierarchy is an edge in some spelling (`exists_edge_of_folded`).
  For the ways along the edges to be the same, two spellings of one name have to lead to each other
  (`Joined`): either they are the same, or they are declared in a circle.
  - `groups_lowered`: in small letters the same groups are read;
  - `Joined.edge_folded`, `Joined.reaches_iff`: if spellings are joined, edges and ways are kept;
  - `case_is_ignored_iff_spellings_are_joined`: the names of a hierarchy are compared without
    regard to case if and only if their spellings are joined;
  - `a_second_spelling_breaks_the_chain`: otherwise a type can miss the types above its parent.
-/

import Pddl.Proofs.Text.Words
import Pddl.Proofs.Types.Subtyping
import Pddl.Proofs.Types.Tops

namespace Pddl

open Relation (ReflTransGen)

/-! ## The groups in small letters -/

namespace Text

theorem toLower_eq_hyphen_iff (c : Char) : c.toLower = '-' ↔ c = '-' := by
  rcases toLower_cases c with e | ⟨hA, hZ, e⟩
  · rw [e]
  · have hhyphen : '-'.toNat = 45 := rfl
    constructor
    · intro h
      rw [h] at e
      omega
    · intro h
      rw [h] at hA
      omega

theorem foldCase_eq_hyphen_iff (name : String) : foldCase name = "-" ↔ name = "-" := by
  constructor
  · intro h
    have hchars : name.toList.map Char.toLower = ['-'] := by
      have hlist := congrArg String.toList h
      rwa [foldCase, String.toList_ofList] at hlist
    obtain ⟨c, hc, e⟩ := List.map_eq_singleton_iff.mp hchars
    rw [← String.ofList_toList (s := name), hc, (toLower_eq_hyphen_iff c).mp e]
  · intro h
    rw [h]
    rfl

end Text

open Text (foldCase lowered sameName sameName_iff)

namespace TypedList

variable {declaration : List Char} {a b : String}

def Group.folded (group : Group) : Group := ⟨group.names.map foldCase, group.type?.map foldCase⟩

theorem groupsFrom_folded (pending words : List String) :
    groupsFrom (pending.map foldCase) (words.map foldCase) =
      (groupsFrom pending words).map Group.folded := by
  fun_induction groupsFrom pending words with
  | case1 pending hempty => simp [groupsFrom, List.isEmpty_iff.mp hempty]
  | case2 pending hempty => simp [groupsFrom, hempty, Group.folded]
  | case3 pending =>
    have hhyphen := (Text.foldCase_eq_hyphen_iff "-").mpr rfl
    simp [groupsFrom, hhyphen, Group.folded]
  | case4 pending type words ih =>
    have hhyphen := (Text.foldCase_eq_hyphen_iff "-").mpr rfl
    rw [List.map_nil] at ih
    simp [groupsFrom, hhyphen, Group.folded, ih]
  | case5 pending word words hword ih =>
    have hfolded : foldCase word ≠ "-" := fun h => hword ((Text.foldCase_eq_hyphen_iff word).mp h)
    rw [List.map_cons, groupsFrom_name hfolded, ← ih, List.map_append, List.map_singleton]

/-- Respelled, a declaration is cut into the same groups. -/
theorem groups_lowered (declaration : List Char) :
    groups (lowered declaration) = (groups declaration).map Group.folded := by
  have hwords : (Text.words (lowered declaration)).map String.ofList =
      ((Text.words declaration).map String.ofList).map foldCase := by
    rw [Text.words_lowered, List.map_map, List.map_map]
    exact List.map_congr_left fun w _ => (Text.foldCase_ofList w).symm
  rw [groups, hwords]
  exact groupsFrom_folded [] _

theorem declares_lowered :
    Declares (lowered declaration) a b ↔
      ∃ x y, Declares declaration x y ∧ foldCase x = a ∧ foldCase y = b := by
  unfold Declares
  simp only [groups_lowered, List.mem_map]
  constructor
  · intro ⟨_, ⟨group, hgroup, hfolded⟩, hchild, htype⟩
    subst hfolded
    obtain ⟨x, hx, hxa⟩ := List.mem_map.mp hchild
    obtain ⟨y, hy, hyb⟩ := Option.map_eq_some_iff.mp htype
    exact ⟨x, y, ⟨group, hgroup, hx, hy⟩, hxa, hyb⟩
  · intro ⟨x, y, ⟨group, hgroup, hx, hy⟩, hxa, hyb⟩
    refine ⟨_, ⟨group, hgroup, rfl⟩, hxa ▸ List.mem_map_of_mem hx, ?_⟩
    rw [Group.folded, hy, Option.map_some, hyb]

theorem lists_lowered :
    Lists (lowered declaration) a ↔ ∃ x, Lists declaration x ∧ foldCase x = a := by
  unfold Lists
  simp only [groups_lowered, List.mem_map]
  constructor
  · intro ⟨_, ⟨group, hgroup, hfolded⟩, hname⟩
    subst hfolded
    obtain ⟨x, hx, hxa⟩ := List.mem_map.mp hname
    exact ⟨x, ⟨group, hgroup, hx⟩, hxa⟩
  · intro ⟨x, ⟨group, hgroup, hx⟩, hxa⟩
    exact ⟨_, ⟨group, hgroup, rfl⟩, hxa ▸ List.mem_map_of_mem hx⟩

end TypedList

/-! ## Edges in small letters -/

namespace Hierarchy

open TypedList (Declares Lists declares_lowered lists_lowered)

variable {root x y a b : String} {declaration : List Char}

def folded (root : String) (declaration : List Char) : Digraph :=
  ofText (foldCase root) (lowered declaration)

theorem wellDrawn_folded (root : String) (declaration : List Char) :
    (folded root declaration).WellDrawn := wellDrawn_ofText _ _

def isSubtypeFolded (root : String) (declaration : List Char) (type parent : String) : Bool :=
  isSubtype (folded root declaration) (foldCase type) (foldCase parent)

theorem not_edge_root : ¬ (ofText root declaration).Edge root y := by
  intro hedge
  rcases edge_ofText_iff.mp hedge with ⟨hne, -⟩ | ⟨-, -, htop⟩
  · exact hne rfl
  · exact (isTop_iff.mp htop).1 rfl

theorem mem_vertices_of_used (h : x ∈ used root declaration) :
    x ∈ (ofText root declaration).vertices := mem_vertices_ofText.mpr (.inl h)

theorem mem_used_of_declares (root : String) (h : Declares declaration x y) :
    x ∈ used root declaration := by
  obtain ⟨group, hgroup, hx, -⟩ := h
  exact mem_used.mpr (.inl ⟨group, hgroup, hx⟩)

/-- What is used in small letters is used in some spelling. -/
theorem exists_used_of_folded (h : a ∈ used (foldCase root) (lowered declaration)) :
    ∃ x ∈ used root declaration, foldCase x = a := by
  rcases mem_used.mp h with hlists | ⟨child, hchild, hdeclares⟩
  · obtain ⟨x, hx, hxa⟩ := lists_lowered.mp hlists
    exact ⟨x, mem_used.mpr (.inl hx), hxa⟩
  · obtain ⟨c, x, hx, hc, hxa⟩ := declares_lowered.mp hdeclares
    have hne : c ≠ root := fun e => hchild (by rw [← hc, e])
    exact ⟨x, mem_used.mpr (.inr ⟨c, hne, hx⟩), hxa⟩

/-- Every edge in small letters is one of the edges as they are spelled. -/
theorem exists_edge_of_folded (h : (folded root declaration).Edge a b) :
    ∃ x y, (ofText root declaration).Edge x y ∧ foldCase x = a ∧ foldCase y = b := by
  rcases edge_ofText_iff.mp h with ⟨hne, hdeclares⟩ | ⟨hb, hused, htop⟩
  · obtain ⟨x, y, hxy, hx, hy⟩ := declares_lowered.mp hdeclares
    have hroot : x ≠ root := fun e => hne (by rw [← hx, e])
    exact ⟨x, y, edge_ofText_iff.mpr (.inl ⟨hroot, hxy⟩), hx, hy⟩
  · obtain ⟨x, hx, hxa⟩ := exists_used_of_folded hused
    obtain ⟨hne, hnot⟩ := isTop_iff.mp htop
    have htop : isTop root declaration x = true := by
      refine isTop_iff.mpr ⟨fun e => hne (by rw [← hxa, e]), fun parent hdeclares => ?_⟩
      exact hnot _ (declares_lowered.mpr ⟨x, parent, hdeclares, hxa, rfl⟩)
    exact ⟨x, root, edge_ofText_iff.mpr (.inr ⟨rfl, hx, htop⟩), hxa, hb.symm⟩

/-! ## Joined spellings -/

/-- The names of a hierarchy: its types, and its root even if no type is joined to it. -/
def known (root : String) (g : Digraph) : List String := root :: g.vertices

/-- Any two spellings of one name lead to each other, or are the same. -/
def Joined (root : String) (g : Digraph) : Prop :=
  ∀ x ∈ known root g, ∀ y ∈ known root g, sameName x y = true → ReflTransGen g.Edge x y

theorem root_known (root : String) (g : Digraph) : root ∈ known root g := List.mem_cons_self

theorem known_of_mem {g : Digraph} (hx : x ∈ g.vertices) : x ∈ known root g :=
  List.mem_cons_of_mem root hx

/-- Spellings are joined where every name has one spelling. -/
theorem joined_of_unique {g : Digraph}
    (h : ∀ x ∈ known root g, ∀ y ∈ known root g, sameName x y = true → x = y) : Joined root g := by
  intro x hx y hy hsame
  rw [h x hx y hy hsame]

/-- The root is joined to itself only: nothing is above it. -/
theorem Joined.eq_root (hj : Joined root (ofText root declaration))
    (hx : x ∈ (ofText root declaration).vertices) (e : foldCase x = foldCase root) : x = root := by
  have hway := hj root (root_known _ _) x (known_of_mem hx) (sameName_iff.mpr e.symm)
  rcases hway.cases_head with e | ⟨_, hedge, -⟩
  · exact e.symm
  · exact absurd hedge not_edge_root

/-- If a top has another spelling, this one is declared with no type either: it would have to be
above the top, where there is only the root. -/
theorem Joined.isTop_folded (hj : Joined root (ofText root declaration))
    (hx : x ∈ used root declaration) (htop : isTop root declaration x = true) :
    isTop (foldCase root) (lowered declaration) (foldCase x) = true := by
  obtain ⟨hne, hnot⟩ := isTop_iff.mp htop
  have hvertex := mem_vertices_of_used hx
  refine isTop_iff.mpr ⟨fun e => hne (hj.eq_root hvertex e), fun b hdeclares => ?_⟩
  obtain ⟨z, p, hz, e, -⟩ := declares_lowered.mp hdeclares
  have hzvertex := mem_vertices_of_used (mem_used_of_declares root hz)
  have hway := hj x (known_of_mem hvertex) z (known_of_mem hzvertex)
    (sameName_iff.mpr e.symm)
  rcases hway.cases_head with rfl | ⟨w, hedge, hrest⟩
  · exact hnot p hz
  · have hw : w = root := by
      rcases edge_ofText_iff.mp hedge with ⟨-, hxw⟩ | ⟨hw, -⟩
      · exact absurd hxw (hnot w)
      · exact hw
    rw [hw] at hrest
    rcases hrest.cases_head with hz' | ⟨_, hup, -⟩
    · exact hne (hj.eq_root hvertex (by rw [hz', e]))
    · exact not_edge_root hup

theorem Joined.mem_used_folded (hj : Joined root (ofText root declaration))
    (hx : x ∈ used root declaration) :
    foldCase x ∈ used (foldCase root) (lowered declaration) := by
  rcases mem_used.mp hx with hlists | ⟨child, hchild, hdeclares⟩
  · exact mem_used.mpr (.inl (lists_lowered.mpr ⟨x, hlists, rfl⟩))
  · have hvertex := mem_vertices_of_used (mem_used_of_declares root hdeclares)
    refine mem_used.mpr (.inr ⟨foldCase child, fun e => hchild (hj.eq_root hvertex e), ?_⟩)
    exact declares_lowered.mpr ⟨child, x, hdeclares, rfl, rfl⟩

theorem Joined.edge_folded (hj : Joined root (ofText root declaration))
    (h : (ofText root declaration).Edge x y) :
    (folded root declaration).Edge (foldCase x) (foldCase y) := by
  rcases edge_ofText_iff.mp h with ⟨hne, hdeclares⟩ | ⟨rfl, hused, htop⟩
  · have hvertex := mem_vertices_of_used (mem_used_of_declares root hdeclares)
    refine edge_ofText_iff.mpr (.inl ⟨fun e => hne (hj.eq_root hvertex e), ?_⟩)
    exact declares_lowered.mpr ⟨x, y, hdeclares, rfl, rfl⟩
  · exact edge_ofText_iff.mpr
      (.inr ⟨rfl, hj.mem_used_folded hused, hj.isTop_folded hused htop⟩)

/-- A way in small letters is one as it is spelled: from one edge to the next, the way goes on from
another spelling of the same name. -/
theorem Joined.exists_way (hj : Joined root (ofText root declaration))
    (hx : x ∈ known root (ofText root declaration))
    (h : ReflTransGen (folded root declaration).Edge (foldCase x) b) :
    ∃ y ∈ known root (ofText root declaration),
      foldCase y = b ∧ ReflTransGen (ofText root declaration).Edge x y := by
  induction h with
  | refl => exact ⟨x, hx, rfl, .refl⟩
  | tail _ hlast ih =>
    obtain ⟨y, hy, hyb, hway⟩ := ih
    obtain ⟨z, w, hedge, hz, hw⟩ := exists_edge_of_folded hlast
    obtain ⟨hzvertex, hwvertex⟩ := (wellDrawn_ofText root declaration).mem_of_edge hedge
    have hjoin := hj y hy z (known_of_mem hzvertex)
      (sameName_iff.mpr (hyb.trans hz.symm))
    exact ⟨w, known_of_mem hwvertex, hw, (hway.trans hjoin).tail hedge⟩

/-- If spellings are joined, the ways between names do not depend on the case of letters. -/
theorem Joined.reaches_iff (hj : Joined root (ofText root declaration))
    (hx : x ∈ known root (ofText root declaration))
    (hy : y ∈ known root (ofText root declaration)) :
    ReflTransGen (ofText root declaration).Edge x y ↔
      ReflTransGen (folded root declaration).Edge (foldCase x) (foldCase y) := by
  constructor
  · intro h
    exact h.lift foldCase fun _ _ => hj.edge_folded
  · intro h
    obtain ⟨z, hz, hzy, hway⟩ := hj.exists_way hx h
    exact hway.trans (hj z hz y hy (sameName_iff.mpr hzy))

theorem isSubtype_iff_reaches {g : Digraph} (hg : g.WellDrawn) :
    isSubtype g x y = true ↔ ReflTransGen g.Edge x y := by
  rw [isSubtype_iff hg, Relation.reflTransGen_iff_eq_or_transGen, eq_comm]

/-- A way of at least one edge is between names of the hierarchy. -/
theorem known_of_reaches {g : Digraph} (hg : g.WellDrawn) (h : ReflTransGen g.Edge x y) :
    x = y ∨ x ∈ known root g ∧ y ∈ known root g := by
  rcases h.cases_head with e | ⟨_, hfirst, -⟩
  · exact .inl e
  · rcases h.cases_tail with e | ⟨_, -, hlast⟩
    · exact .inl e.symm
    · exact .inr ⟨known_of_mem (hg.mem_of_edge hfirst).1, known_of_mem (hg.mem_of_edge hlast).2⟩

/-- If spellings are joined, the answer is the one that ignores case, for names that are spelled as
in the declaration. -/
theorem Joined.isSubtype_iff (hj : Joined root (ofText root declaration)) :
    isSubtype (ofText root declaration) x y = true ↔
      x = y ∨ x ∈ known root (ofText root declaration) ∧ y ∈ known root (ofText root declaration) ∧
        isSubtypeFolded root declaration x y = true := by
  have hg := wellDrawn_ofText root declaration
  unfold isSubtypeFolded
  rw [isSubtype_iff_reaches hg, isSubtype_iff_reaches (wellDrawn_folded root declaration)]
  constructor
  · intro h
    rcases known_of_reaches hg h with e | ⟨hx, hy⟩
    · exact .inl e
    · exact .inr ⟨hx, hy, (hj.reaches_iff hx hy).mp h⟩
  · intro h
    rcases h with e | ⟨hx, hy, h⟩
    · rw [e]
    · exact (hj.reaches_iff hx hy).mpr h

/-- Names that are spelled as in a declaration have the answers that ignore case. -/
theorem Joined.isSubtype_eq (hj : Joined root (ofText root declaration))
    (hx : x ∈ known root (ofText root declaration))
    (hy : y ∈ known root (ofText root declaration)) :
    isSubtype (ofText root declaration) x y = isSubtypeFolded root declaration x y := by
  rw [Bool.eq_iff_iff, hj.isSubtype_iff]
  constructor
  · intro h
    rcases h with e | ⟨-, -, h⟩
    · rw [e, isSubtypeFolded, Hierarchy.isSubtype_iff (wellDrawn_folded root declaration)]
      exact .inl rfl
    · exact h
  · intro h
    exact .inr ⟨hx, hy, h⟩

end Hierarchy

namespace Domain

open Hierarchy (known Joined)

/-- Asking for the types of a domain, whose types were declared with some root.
- For its names the answers do not depend on the case of letters if and only if any two spellings
  of one name are the same, or are declared in a circle.
- If they are, the answer for any two names is yes if they are the same, or if both are spelled as
  in the declaration and the answer that ignores case is yes.
- A domain with the declaration respelled in any way then gives the same answers, if it has its
  spellings joined as well and is asked in those. -/
theorem case_is_ignored_iff_spellings_are_joined (root : String) (declaration : List Char)
    (d : Domain) (hd : d.types = Hierarchy.ofText root declaration) :
    ((∀ x ∈ known root d.types, ∀ x' ∈ known root d.types, ∀ y ∈ known root d.types,
        ∀ y' ∈ known root d.types, sameName x x' = true → sameName y y' = true →
        d.isSubtype x y = d.isSubtype x' y') ↔ Joined root d.types) ∧
    (Joined root d.types → ∀ x y, d.isSubtype x y = true ↔
      x = y ∨ x ∈ known root d.types ∧ y ∈ known root d.types ∧
        Hierarchy.isSubtypeFolded root declaration x y = true) ∧
    ∀ (respelled : List Char) (d' : Domain), d'.types = Hierarchy.ofText root respelled →
      lowered respelled = lowered declaration → Joined root d.types → Joined root d'.types →
      ∀ x ∈ known root d.types, ∀ x' ∈ known root d'.types, ∀ y ∈ known root d.types,
        ∀ y' ∈ known root d'.types, sameName x x' = true → sameName y y' = true →
        d.isSubtype x y = d'.isSubtype x' y' := by
  have hrespelled : ∀ (respelled : List Char) (d' : Domain),
      d'.types = Hierarchy.ofText root respelled →
      lowered respelled = lowered declaration → Joined root d.types → Joined root d'.types →
      ∀ x ∈ known root d.types, ∀ x' ∈ known root d'.types, ∀ y ∈ known root d.types,
        ∀ y' ∈ known root d'.types, sameName x x' = true → sameName y y' = true →
        d.isSubtype x y = d'.isSubtype x' y' := by
    intro respelled d' hd' hlowered hj hj' x hx x' hx' y hy y' hy' hxx hyy
    unfold Domain.isSubtype
    rw [hd] at hj hx hy ⊢
    rw [hd'] at hj' hx' hy' ⊢
    rw [hj.isSubtype_eq hx hy, hj'.isSubtype_eq hx' hy', Hierarchy.isSubtypeFolded,
      Hierarchy.isSubtypeFolded, Hierarchy.folded, Hierarchy.folded, hlowered,
      sameName_iff.mp hxx, sameName_iff.mp hyy]
  refine ⟨⟨?_, fun hj => hrespelled declaration d hd rfl hj hj⟩, ?_, hrespelled⟩
  · intro h x hx y hy hsame
    have hg : d.types.WellDrawn := hd ▸ Hierarchy.wellDrawn_ofText root declaration
    have hself : d.isSubtype x x = true := (Hierarchy.isSubtype_iff hg).mpr (.inl rfl)
    rw [h x hx x hx x hx y hy (sameName_iff.mpr rfl) hsame] at hself
    exact (Hierarchy.isSubtype_iff_reaches hg).mp hself
  · intro hj x y
    unfold Domain.isSubtype
    rw [hd] at hj ⊢
    exact hj.isSubtype_iff

def ofTypes (root : String) (declaration : List Char) : Domain :=
  { named none with types := Hierarchy.ofText root declaration }

theorem types_ofTypes (root : String) (declaration : List Char) :
    (ofTypes root declaration).types = Hierarchy.ofText root declaration := rfl

/-- One declaration in two spellings, with each name in one spelling throughout. -/
theorem a_respelled_chain_is_kept :
    let declaration := "truck - vehicle vehicle - thing".toList
    let respelled := "Truck - VEHICLE VEHICLE - thing".toList
    let d := ofTypes "object" declaration
    let d' := ofTypes "object" respelled
    Joined "object" d.types ∧ Joined "object" d'.types ∧
      d.isSubtype "truck" "thing" = true ∧ d'.isSubtype "Truck" "thing" = true := by
  intro declaration respelled d d'
  have hj : Joined "object" d.types := Hierarchy.joined_of_unique (by decide +kernel)
  have hj' : Joined "object" d'.types := Hierarchy.joined_of_unique (by decide +kernel)
  have hlowered : lowered respelled = lowered declaration := by decide +kernel
  obtain ⟨-, -, hrespelled⟩ := case_is_ignored_iff_spellings_are_joined "object" declaration d
    (types_ofTypes "object" declaration)
  have hsame : d.isSubtype "truck" "thing" = d'.isSubtype "Truck" "thing" :=
    hrespelled respelled d' (types_ofTypes "object" respelled) hlowered hj hj'
      "truck" (by decide +kernel) "Truck" (by decide +kernel)
      "thing" (by decide +kernel) "thing" (by decide +kernel) (by decide) (by decide)
  have htrucks : d.isSubtype "truck" "thing" = true := by decide +kernel
  exact ⟨hj, hj', htrucks, hsame.symm.trans htrucks⟩

def sourceOf (text : String) : Source :=
  ⟨"file:///w/d.pddl", 1, .pddl, Tree.ofText text.toList, Locator.ofText text.toList⟩

theorem exists_read (root : String) (s : Source) (p : Domain → Bool)
    (h : (Domain.read root s).toOption.join.any p = true) :
    ∃ d, Domain.read root s = .ok (some d) ∧ p d = true := by
  cases hread : Domain.read root s with
  | error fault =>
    rw [hread] at h
    cases h
  | ok d? =>
    rw [hread] at h
    cases d? with
    | none => cases h
    | some d => exact ⟨d, rfl, h⟩

/-- A parent that is spelled in two ways: the chain of types ends at the spelling that is not
declared further, and a type in capitals is another type, while the constants of a type are found in
any case. In one spelling, the same chain goes on. -/
theorem a_second_spelling_breaks_the_chain :
    (∃ d, Domain.read "object" (sourceOf
        "(define (domain d) (:types truck - Vehicle vehicle - thing) (:constants t - TRUCK))") =
          .ok (some d) ∧
      d.isSubtype "truck" "thing" = false ∧ d.isSubtype "TRUCK" "truck" = false ∧
      d.constants.objectsOf "truck" = ["t"]) ∧
    ∃ d, Domain.read "object" (sourceOf
        "(define (domain d) (:types truck - vehicle vehicle - thing) (:constants t - TRUCK))") =
          .ok (some d) ∧
      d.isSubtype "truck" "thing" = true := by
  constructor
  · obtain ⟨d, hread, hd⟩ := exists_read "object" (sourceOf
        "(define (domain d) (:types truck - Vehicle vehicle - thing) (:constants t - TRUCK))")
      (fun d => !d.isSubtype "truck" "thing" && !d.isSubtype "TRUCK" "truck" &&
        d.constants.objectsOf "truck" == ["t"]) (by decide +kernel)
    simp only [Bool.and_eq_true, Bool.not_eq_true', beq_iff_eq] at hd
    exact ⟨d, hread, hd.1.1, hd.1.2, hd.2⟩
  · exact exists_read _ _ _ (by decide +kernel)

end Domain

end Pddl
