/-
  Pddl.Proofs.Project.Files — the files of a project, looked up by their URIs.

  A project keeps at most one file for each URI (`Distinct`). What storing, soiling and removing
  do to the list of files is said here once, through look-ups and through the list of URIs, and
  not unfolded again:
  - `find?_put`, `find?_soilIf`, `find?_remove`: what is found at each URI afterwards;
  - `soilIf_eq`: of a file that is soiled only the status changes, and when;
  - `store_files`: storing a file puts it in its place and then soils what depends on it.
-/

import Mathlib.Data.List.Nodup
import Pddl.Project.State

namespace Pddl.Project

variable {files : List File} {f g : File} {uri : String}

def Distinct (files : List File) : Prop := (files.map (·.uri)).Nodup

theorem mem_of_find? (h : files.find? (·.uri == uri) = some f) : f ∈ files ∧ f.uri = uri := by
  refine ⟨List.mem_of_find?_eq_some h, ?_⟩
  have hu := List.find?_some h
  exact beq_iff_eq.mp hu

theorem find?_eq_none : files.find? (·.uri == uri) = none ↔ ∀ f ∈ files, f.uri ≠ uri := by
  simp

theorem find?_of_mem (hd : Distinct files) (hf : f ∈ files) :
    files.find? (·.uri == f.uri) = some f := by
  cases hfind : files.find? (·.uri == f.uri) with
  | none => exact absurd rfl (find?_eq_none.mp hfind f hf)
  | some g =>
    obtain ⟨hg, hu⟩ := mem_of_find? hfind
    rw [List.inj_on_of_nodup_map hd hg hf hu]

theorem any_uri : files.any (·.uri == uri) = true ↔ ∃ f ∈ files, f.uri = uri := by
  simp

theorem find?_isSome : (files.find? (·.uri == uri)).isSome = files.any (·.uri == uri) := by
  rw [Bool.eq_iff_iff, List.find?_isSome, List.any_eq_true]

/-! ## Putting -/

/-- A file that is put is found at its URI; at the other URIs nothing changes. -/
theorem find?_put (f : File) (files : List File) (uri : String) :
    (put f files).find? (·.uri == uri) =
      if f.uri = uri then some f else files.find? (·.uri == uri) := by
  unfold put
  split
  · rename_i hany
    -- the replacement keeps URIs, so it commutes with the search
    have hsame : ((·.uri == uri) ∘ fun g => if g.uri == f.uri then f else g : File → Bool) =
        (·.uri == uri) := by
      funext g
      simp only [Function.comp]
      split
      · rename_i hg; rw [beq_iff_eq.mp hg]
      · rfl
    rw [List.find?_map, hsame]
    cases hfind : files.find? (·.uri == uri) with
    | none =>
      rw [if_neg]
      · rfl
      · rintro rfl
        obtain ⟨g, hg, hu⟩ := any_uri.mp hany
        exact find?_eq_none.mp hfind g hg hu
    | some g =>
      have hu := (mem_of_find? hfind).2
      by_cases e : f.uri = uri
      · simp [e, hu]
      · simp [e, hu, Ne.symm e]
  · rename_i hnone
    rw [List.find?_append]
    by_cases e : f.uri = uri
    · have hfind : files.find? (·.uri == uri) = none :=
        find?_eq_none.mpr fun g hg hu => hnone (any_uri.mpr ⟨g, hg, hu.trans e.symm⟩)
      simp [hfind, e]
    · simp [e]

/-- Putting a file keeps the URIs in their order; a new one is the last. -/
theorem uris_put (f : File) (files : List File) :
    (put f files).map (·.uri) =
      if files.any (·.uri == f.uri) then files.map (·.uri) else files.map (·.uri) ++ [f.uri] := by
  unfold put
  split
  · rw [List.map_map]
    apply List.map_congr_left
    intro g _
    simp only [Function.comp]
    split
    · rename_i hg; exact (beq_iff_eq.mp hg).symm
    · rfl
  · simp

theorem distinct_put (f : File) (hd : Distinct files) : Distinct (put f files) := by
  unfold Distinct
  rw [uris_put]
  split
  · exact hd
  · rename_i hnone
    rw [List.nodup_append]
    refine ⟨hd, by simp, ?_⟩
    intro u hu v hv
    obtain ⟨g, hg, rfl⟩ := List.mem_map.mp hu
    rw [List.mem_singleton.mp hv]
    exact fun e => hnone (any_uri.mpr ⟨g, hg, e⟩)

/-! ## Removing -/

theorem find?_remove (files : List File) (gone uri : String) :
    (files.filter (·.uri != gone)).find? (·.uri == uri) =
      if gone = uri then none else files.find? (·.uri == uri) := by
  by_cases e : gone = uri
  · subst e
    rw [if_pos rfl, find?_eq_none]
    intro f hf
    simpa using (List.mem_filter.mp hf).2
  · rw [if_neg e, List.find?_filter]
    congr 1
    funext f
    by_cases hu : f.uri = uri
    · simp [hu, Ne.symm e]
    · simp [hu]

theorem distinct_remove (gone : String) (hd : Distinct files) :
    Distinct (files.filter (·.uri != gone)) :=
  List.Nodup.sublist (List.filter_sublist.map _) hd

/-! ## Soiling -/

def soilIf (domain? : Option String) (f : File) : File :=
  match domain? with
  | some domain => soil domain f
  | none => f

/-- Soiling changes nothing but the status, which becomes dirty if it was parsed and the file
refers to the domain. -/
theorem soilIf_eq (domain? : Option String) (f : File) :
    soilIf domain? f =
      { f with
        status := if f.status = .parsed ∧ domain?.any f.refersTo = true then .dirty
          else f.status } := by
  cases domain? with
  | none => simp [soilIf]
  | some domain =>
    unfold soilIf soil dependsOn
    by_cases hs : f.status = .parsed ∧ f.refersTo domain = true
    · simp [hs.1, hs.2]
    · have hb : (f.status == .parsed && f.refersTo domain) = false := by simpa using hs
      simp [hb, hs]

@[simp] theorem soilIf_uri (domain? : Option String) (f : File) :
    (soilIf domain? f).uri = f.uri := by
  rw [soilIf_eq]

theorem find?_soilIf (domain? : Option String) (files : List File) (uri : String) :
    (files.map (soilIf domain?)).find? (·.uri == uri) =
      (files.find? (·.uri == uri)).map (soilIf domain?) := by
  rw [List.find?_map]
  congr 2
  funext f
  simp [Function.comp]

theorem distinct_soilIf (domain? : Option String) (hd : Distinct files) :
    Distinct (files.map (soilIf domain?)) := by
  unfold Distinct
  rw [List.map_map]
  have huri : (·.uri) ∘ soilIf domain? = (·.uri) := by
    funext f
    simp [Function.comp]
  rw [huri]
  exact hd

/-- A domain refers to no domain. -/
theorem refersTo_of_domainName? {name : String} (h : f.domainName? = some name)
    (domain : String) : f.refersTo domain = false := by
  unfold File.domainName? at h
  unfold File.refersTo
  cases hc : f.content <;> simp_all [Content.domain?, Content.problem?]

/-- The file whose arrival soils others is not soiled itself. -/
theorem soilIf_changedDomain?_self (p : Project) (f : File) :
    soilIf (p.changedDomain? f) f = f := by
  cases hd : p.changedDomain? f with
  | none => rfl
  | some domain =>
    unfold changedDomain? at hd
    split at hd
    · rw [soilIf_eq]
      simp [refersTo_of_domainName? hd]
    · cases hd

/-! ## Storing -/

theorem store_files (p : Project) (f : File) :
    (p.store f).project.files = (put f p.files).map (soilIf (p.changedDomain? f)) := by
  unfold store
  split
  · rename_i hd
    have hid : soilIf none = id := rfl
    simp [hd, hid]
  · rename_i domain hd
    rw [hd]
    rfl

theorem find?_store (p : Project) (f : File) (uri : String) :
    (p.store f).project.find? uri =
      if f.uri = uri then some f else (p.find? uri).map (soilIf (p.changedDomain? f)) := by
  unfold find?
  rw [store_files, find?_soilIf, find?_put]
  split
  · rw [Option.map_some, soilIf_changedDomain?_self]
  · rfl

end Pddl.Project
