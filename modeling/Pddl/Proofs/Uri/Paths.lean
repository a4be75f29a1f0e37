/-
  Pddl.Proofs.Uri.Paths — what of a URI its path is read from.

  A URI is cut in three places: behind the colon of its scheme, behind its authority, and in front
  of its query. What the cuts leave is said here for a URI put together from its parts:
  - `afterScheme?_eq_some_iff`: a colon ends a scheme if one stands in front of it;
  - `rawPath_hosted`, `rawPath_unhosted`: a scheme in front of a path, with an authority or
    without, is cut off;
  - `rawPath_append`: so is all behind a question mark or a number sign, whatever stands in front
    of it, as neither of them belongs to a scheme or an authority.
  Escapes are decoded behind the cuts, so that the same holds of the path (`path_hosted`,
  `path_unhosted`, `path_query`, `path_fragment`).
-/

import Pddl.Proofs.Text.Runs
import Pddl.Uri

namespace Pddl.Uri

def IsScheme (scheme : List Char) : Prop :=
  ∃ letter others, scheme = letter :: others ∧ letter.isAlpha = true ∧ others ≠ [] ∧
    ∀ c ∈ others, c.isAlphanum = true ∨ c = '+' ∨ c = '.' ∨ c = '-'

def IsAuthority (authority : List Char) : Prop :=
  ∀ c ∈ authority, c ≠ '/' ∧ c ≠ '?' ∧ c ≠ '#'

def EndsPath (mark : Char) : Prop := mark = '?' ∨ mark = '#'

variable {cs rest scheme authority : List Char} {c mark : Char}

theorem isSchemeChar_iff :
    isSchemeChar c = true ↔ c.isAlphanum = true ∨ c = '+' ∨ c = '.' ∨ c = '-' := by
  simp [isSchemeChar, or_assoc]

theorem EndsPath.not_scheme (h : EndsPath mark) : isSchemeChar mark = false ∧ mark ≠ ':' := by
  rcases h with rfl | rfl <;> decide

theorem EndsPath.endsAuthority (h : EndsPath mark) : endsAuthority mark = true ∧ mark ≠ '/' := by
  rcases h with rfl | rfl <;> decide

/-! ## The scheme -/

theorem IsScheme.isSchemeChar (h : IsScheme scheme) (hc : c ∈ scheme) : isSchemeChar c = true := by
  obtain ⟨letter, others, rfl, hletter, -, hothers⟩ := h
  rw [isSchemeChar_iff]
  rcases List.mem_cons.mp hc with rfl | hc
  · simp [Char.isAlphanum, hletter]
  · exact hothers c hc

theorem isScheme_of_all {letter : Char} {others : List Char} (hletter : letter.isAlpha = true)
    (hne : others ≠ []) (hothers : others.all isSchemeChar = true) :
    IsScheme (letter :: others) := by
  refine ⟨letter, others, rfl, hletter, hne, ?_⟩
  intro c hc
  exact isSchemeChar_iff.mp (List.all_eq_true.mp hothers c hc)

theorem afterScheme?_scheme (h : IsScheme scheme) (rest : List Char) :
    afterScheme? (scheme ++ ':' :: rest) = some rest := by
  have hchars := fun c => h.isSchemeChar (c := c)
  obtain ⟨letter, others, rfl, hletter, hne, -⟩ := h
  have hstop : ∀ c ∈ (':' :: rest).head?, isSchemeChar c = false := by
    intro c hc
    obtain rfl : ':' = c := by simpa using hc
    decide
  obtain ⟨htake, hdrop⟩ :=
    Text.takeWhile_append_stop (fun c hc => hchars c (List.mem_cons_of_mem _ hc)) hstop
  have hlong : (others.isEmpty) = false := by simpa using hne
  simp only [List.cons_append, afterScheme?, htake, hdrop, hletter, hlong, Bool.not_false,
    Bool.and_self, if_true]

/-- What follows a scheme stands behind a colon with a scheme in front of it. -/
theorem afterScheme?_eq_some_iff :
    afterScheme? cs = some rest ↔ ∃ scheme, IsScheme scheme ∧ cs = scheme ++ ':' :: rest := by
  constructor
  · intro h
    unfold afterScheme? at h
    split at h
    · cases h
    rename_i c cs
    split at h
    · rename_i hc
      simp only [Bool.and_eq_true, Bool.not_eq_true', List.isEmpty_eq_false_iff] at hc
      split at h
      · rename_i behind hdrop
        obtain rfl : behind = rest := Option.some.inj h
        refine ⟨c :: cs.takeWhile isSchemeChar, ⟨c, _, rfl, hc.1, hc.2, ?_⟩, ?_⟩
        · intro d hd
          exact isSchemeChar_iff.mp (List.mem_takeWhile_imp hd)
        · rw [List.cons_append, ← hdrop, List.takeWhile_append_dropWhile]
      · cases h
    · cases h
  · intro h
    obtain ⟨scheme, hscheme, rfl⟩ := h
    exact afterScheme?_scheme hscheme rest

/-- A text that begins with a slash has no scheme. -/
theorem afterScheme?_slash (cs : List Char) : afterScheme? ('/' :: cs) = none := by
  have hslash : '/'.isAlpha = false := by decide
  simp [afterScheme?, hslash]

/-- A query behind a text neither makes a scheme of it nor lengthens the one that it has. -/
theorem afterScheme?_append (h : EndsPath mark) (cs query : List Char) :
    afterScheme? (cs ++ mark :: query) = (afterScheme? cs).map (· ++ mark :: query) := by
  obtain ⟨hchar, hcolon⟩ := h.not_scheme
  cases hcs : afterScheme? cs with
  | some rest =>
    obtain ⟨scheme, hscheme, rfl⟩ := afterScheme?_eq_some_iff.mp hcs
    rw [List.append_assoc]
    exact afterScheme?_scheme hscheme _
  | none =>
    rw [Option.map_none, Option.eq_none_iff_forall_ne_some]
    intro rest hrest
    obtain ⟨scheme, hscheme, heq⟩ := afterScheme?_eq_some_iff.mp hrest
    -- the scheme ends in front of the mark, or holds it
    rcases List.append_eq_append_iff.mp heq with ⟨more, hmore, htail⟩ | ⟨more, rfl, htail⟩
    · cases more with
      | nil => exact hcolon (List.cons.inj htail).1
      | cons d ds =>
        obtain rfl : mark = d := (List.cons.inj htail).1
        have hin := hscheme.isSchemeChar (c := mark) (by simp [hmore])
        rw [hchar] at hin
        cases hin
    · cases more with
      | nil => exact hcolon (List.cons.inj htail).1.symm
      | cons d ds =>
        obtain rfl : ':' = d := (List.cons.inj htail).1
        rw [afterScheme?_scheme hscheme] at hcs
        cases hcs

/-! ## The authority -/

theorem isAuthority_iff_all :
    IsAuthority authority ↔ authority.all (!endsAuthority ·) = true := by
  simp [IsAuthority, endsAuthority, and_assoc]

theorem afterAuthority_authority (h : IsAuthority authority) (path : List Char) :
    afterAuthority ('/' :: '/' :: (authority ++ '/' :: path)) = '/' :: path := by
  have hchars := List.all_eq_true.mp (isAuthority_iff_all.mp h)
  have hstop : ∀ c ∈ ('/' :: path).head?, (!endsAuthority c) = false := by
    intro c hc
    obtain rfl : '/' = c := by simpa using hc
    decide
  exact (Text.takeWhile_append_stop hchars hstop).2

theorem afterAuthority_eq_self (h : ¬ ['/', '/'] <+: cs) : afterAuthority cs = cs := by
  unfold afterAuthority
  split
  · rename_i rest
    exact absurd ⟨rest, rfl⟩ h
  · rfl

/-- Two slashes in front of a query stand in front of it already without the query. -/
theorem slashes_of_append (hne : mark ≠ '/') {query : List Char}
    (h : ['/', '/'] <+: cs ++ mark :: query) : ['/', '/'] <+: cs := by
  obtain ⟨behind, hbehind⟩ := h
  match cs with
  | [] => exact absurd (List.cons.inj hbehind).1.symm hne
  | [c] => exact absurd (List.cons.inj (List.cons.inj hbehind).2).1.symm hne
  | c :: d :: ds =>
    simp only [List.cons_append, List.nil_append, List.cons.injEq] at hbehind
    obtain ⟨rfl, rfl, -⟩ := hbehind
    exact ⟨ds, rfl⟩

/-- A query behind a text does not lengthen the authority that it begins with. -/
theorem afterAuthority_append (h : EndsPath mark) (cs query : List Char) :
    afterAuthority (cs ++ mark :: query) = afterAuthority cs ++ mark :: query := by
  obtain ⟨hends, hne⟩ := h.endsAuthority
  by_cases hslashes : ['/', '/'] <+: cs
  · obtain ⟨behind, rfl⟩ := hslashes
    exact (Text.takeWhile_append_mark (by simp [hends]) behind query).2
  · rw [afterAuthority_eq_self hslashes, afterAuthority_eq_self]
    intro hmore
    exact hslashes (slashes_of_append hne hmore)

/-! ## The path as it is written -/

theorem beforeQuery_append (h : EndsPath mark) (cs query : List Char) :
    beforeQuery (cs ++ mark :: query) = beforeQuery cs := by
  apply (Text.takeWhile_append_mark _ cs query).1
  rcases h with rfl | rfl <;> rfl

theorem rawPath_hosted (hs : IsScheme scheme) (ha : IsAuthority authority) (path : List Char) :
    rawPath (scheme ++ ':' :: '/' :: '/' :: (authority ++ '/' :: path)) = rawPath ('/' :: path) := by
  unfold rawPath
  rw [afterScheme?_scheme hs, afterScheme?_slash]
  simp only
  rw [afterAuthority_authority ha]

theorem rawPath_unhosted (hs : IsScheme scheme) {path : List Char}
    (hpath : ¬ ['/', '/'] <+: '/' :: path) :
    rawPath (scheme ++ ':' :: '/' :: path) = rawPath ('/' :: path) := by
  unfold rawPath
  rw [afterScheme?_scheme hs, afterScheme?_slash]
  simp only
  rw [afterAuthority_eq_self hpath]

theorem rawPath_append (h : EndsPath mark) (cs query : List Char) :
    rawPath (cs ++ mark :: query) = rawPath cs := by
  unfold rawPath
  rw [afterScheme?_append h]
  cases afterScheme? cs with
  | none => exact beforeQuery_append h cs query
  | some rest =>
    simp only [Option.map_some]
    rw [afterAuthority_append h]
    exact beforeQuery_append h _ query

/-! ## The path -/

theorem path_eq_of_rawPath {u v : String} (h : rawPath u.toList = rawPath v.toList) :
    path u = path v := by
  unfold path
  rw [h]

variable {scheme authority p : String}

/-- A scheme and an authority in front of a path change nothing of it. -/
theorem path_hosted (hs : IsScheme scheme.toList) (ha : IsAuthority authority.toList)
    (hp : p.toList.head? = some '/') : path (scheme ++ "://" ++ authority ++ p) = path p := by
  apply path_eq_of_rawPath
  obtain ⟨rest, hrest⟩ := List.head?_eq_some_iff.mp hp
  have hcolon : "://".toList = [':', '/', '/'] := rfl
  simp only [String.toList_append, hcolon, hrest, List.append_assoc, List.cons_append,
    List.nil_append]
  exact rawPath_hosted hs ha rest

/-- So does a scheme alone, unless the path itself looks as if it began with an authority. -/
theorem path_unhosted (hs : IsScheme scheme.toList) (hp : p.toList.head? = some '/')
    (hslashes : ¬ ['/', '/'] <+: p.toList) : path (scheme ++ ":" ++ p) = path p := by
  apply path_eq_of_rawPath
  obtain ⟨rest, hrest⟩ := List.head?_eq_some_iff.mp hp
  have hcolon : ":".toList = [':'] := rfl
  rw [hrest] at hslashes
  simp only [String.toList_append, hcolon, hrest, List.append_assoc, List.cons_append,
    List.nil_append]
  exact rawPath_unhosted hs hslashes

theorem path_query (u query : String) : path (u ++ "?" ++ query) = path u := by
  apply path_eq_of_rawPath
  have hmark : "?".toList = ['?'] := rfl
  simp only [String.toList_append, hmark, List.append_assoc, List.cons_append, List.nil_append]
  exact rawPath_append (.inl rfl) _ _

theorem path_fragment (u fragment : String) : path (u ++ "#" ++ fragment) = path u := by
  apply path_eq_of_rawPath
  have hmark : "#".toList = ['#'] := rfl
  simp only [String.toList_append, hmark, List.append_assoc, List.cons_append, List.nil_append]
  exact rawPath_append (.inr rfl) _ _

/-! ## File names and folders -/

variable {u v : String}

theorem fileName_eq_of_path (h : path u = path v) : fileName u = fileName v := by
  unfold fileName
  rw [h]

theorem folder_eq_of_path (h : path u = path v) : folder u = folder v := by
  unfold folder
  rw [h]

end Pddl.Uri
