/-
  Pddl.Proofs.Project.Relocation — files under other URIs of the same paths.

  A host may name one file by many URIs: with a scheme and an authority or as a plain path, with a
  query for a revision or without. What counts of a URI is its path alone, and of the URIs of files
  that are resolved only their folders:
  - `closest?_map`: a choice among candidates is the same when all of them keep their folders;
  - `domainFor?_map`, `problemFor?_map`: so are the look-ups, when files keep their contents too;
  - `only_the_path_locates`: so schemes, authorities, queries and fragments change neither names
    and folders nor the choice between files.
-/

import Mathlib.Data.List.Find
import Pddl.Proofs.Project.Resolution
import Pddl.Proofs.Uri.Paths

namespace Pddl.Project

open Uri (IsScheme IsAuthority)

def relocated (move : File → File) (p : Project) : Project := { p with files := p.files.map move }

structure Relocates (move : File → File) (f : File) : Prop where
  path : Uri.path (move f).uri = Uri.path f.uri
  content : (move f).content = f.content

variable {p : Project} {move : File → File} {f : File}

theorem Relocates.folder (h : Relocates move f) : (move f).folder = f.folder :=
  Uri.folder_eq_of_path h.path

theorem closest?_map {candidates : List File} (hf : (move f).folder = f.folder)
    (hmove : ∀ c ∈ candidates, (move c).folder = c.folder) :
    closest? (move f) (candidates.map move) = (closest? f candidates).map move := by
  have hfind : (candidates.map move).find? (fun c => c.folder == (move f).folder) =
      (candidates.find? fun c => c.folder == f.folder).map move := by
    rw [List.find?_map, hf]
    apply congrArg (Option.map move)
    apply List.find?_congr
    intro c hc
    simp [hmove c hc]
  unfold closest?
  rw [hfind, List.head?_map]
  cases candidates.find? fun c => c.folder == f.folder with
  | none => rfl
  | some c => rfl

section LookUps

variable (hf : Relocates move f) (hmove : ∀ g ∈ p.files, Relocates move g)

include hf hmove

/-- A choice among the files whose contents have a property is the same. -/
theorem closest?_relocated (property : Content → Bool) :
    closest? (move f) ((p.relocated move).files.filter (property ·.content)) =
      (closest? f (p.files.filter (property ·.content))).map move := by
  have hfilter : (p.relocated move).files.filter (property ·.content) =
      (p.files.filter (property ·.content)).map move := by
    show (p.files.map move).filter _ = _
    rw [List.filter_map]
    apply congrArg (List.map move)
    apply List.filter_congr
    intro g hg
    simp [(hmove g hg).content]
  rw [hfilter]
  apply closest?_map hf.folder
  intro c hc
  exact (hmove c (List.mem_of_mem_filter hc)).folder

theorem domainFor?_map :
    (p.relocated move).domainFor? (move f) = (p.domainFor? f).map move := by
  unfold domainFor?
  rw [domainCandidates_eq, domainCandidates_eq, hf.content]
  exact closest?_relocated hf hmove fun content =>
    (f.content.problem?.bind (·.domain?)).any fun name => content.domain?.any (·.hasName name)

theorem problemFor?_map :
    (p.relocated move).problemFor? (move f) = (p.problemFor? f).map move := by
  unfold problemFor?
  rw [problemCandidates_eq, problemCandidates_eq, hf.content]
  exact closest?_relocated hf hmove fun content =>
    f.content.schedule?.any fun s => s.solved.problem?.any fun name =>
      content.problem?.any (answersTo name s.solved.domain?)

end LookUps

/-- The path of a URI is the path that is left without the scheme and the authority in front of it
and without the query and the fragment behind it. File names and folders are those of the path,
and when the files of a project come under other URIs of the same paths, every problem and every
plan is resolved to the same file as before. -/
theorem only_the_path_locates :
    (∀ scheme authority path : String, IsScheme scheme.toList → IsAuthority authority.toList →
      path.toList.head? = some '/' →
      Uri.path (scheme ++ "://" ++ authority ++ path) = Uri.path path) ∧
    (∀ scheme path : String, IsScheme scheme.toList → path.toList.head? = some '/' →
      ¬ ['/', '/'] <+: path.toList → Uri.path (scheme ++ ":" ++ path) = Uri.path path) ∧
    (∀ uri query : String, Uri.path (uri ++ "?" ++ query) = Uri.path uri ∧
      Uri.path (uri ++ "#" ++ query) = Uri.path uri) ∧
    (∀ uri other : String, Uri.path uri = Uri.path other →
      Uri.fileName uri = Uri.fileName other ∧ Uri.folder uri = Uri.folder other) ∧
    ∀ (p : Project) (move : File → File) (f : File), Relocates move f →
      (∀ g ∈ p.files, Relocates move g) →
      (p.relocated move).domainFor? (move f) = (p.domainFor? f).map move ∧
      (p.relocated move).problemFor? (move f) = (p.problemFor? f).map move := by
  refine ⟨?_, ?_, ?_, ?_, ?_⟩
  · intro scheme authority path hscheme hauthority hpath
    exact Uri.path_hosted hscheme hauthority hpath
  · intro scheme path hscheme hpath hslashes
    exact Uri.path_unhosted hscheme hpath hslashes
  · intro uri query
    exact ⟨Uri.path_query uri query, Uri.path_fragment uri query⟩
  · intro uri other h
    exact ⟨Uri.fileName_eq_of_path h, Uri.folder_eq_of_path h⟩
  · intro p move f hf hmove
    exact ⟨domainFor?_map hf hmove, problemFor?_map hf hmove⟩

def atRevision (f : File) : File := { f with uri := f.uri ++ "?" ++ "ref=HEAD" }

theorem relocates_atRevision (f : File) : Relocates atRevision f :=
  ⟨Uri.path_query f.uri "ref=HEAD", rfl⟩

/-- A generated file is in the folder of the file that it stands for, and at a revision a problem
is resolved to its domain at that revision. -/
theorem revisions_are_resolved_alike :
    Uri.path ("pddl-generated" ++ "://" ++ "tool:80" ++ "/c:/w/d.pddl") =
      Uri.path "/c:/w/d.pddl" ∧
    Uri.folder ("pddl-generated" ++ "://" ++ "tool:80" ++ "/c:/w/d.pddl") =
      Uri.folder "/c:/w/d.pddl" ∧
    Uri.path ("git" ++ ":" ++ "/c%3A/w/d.pddl") = Uri.path "/c%3A/w/d.pddl" ∧
    ∃ problem domain, ((empty {}).run foldersRun).domainFor? problem = some domain ∧
      domain.uri = "file:///w/d.pddl" ∧
      (((empty {}).run foldersRun).relocated atRevision).domainFor? (atRevision problem) =
        some (atRevision domain) := by
  have hgenerated : IsScheme ('p' :: "ddl-generated".toList) :=
    Uri.isScheme_of_all (by decide) (by decide) (by decide)
  have hgit : IsScheme ('g' :: "it".toList) :=
    Uri.isScheme_of_all (by decide) (by decide) (by decide)
  have htool : IsAuthority "tool:80".toList := Uri.isAuthority_iff_all.mpr (by decide)
  obtain ⟨hhosted, hunhosted, -, hnames, hmoved⟩ := only_the_path_locates
  have hpath := hhosted "pddl-generated" "tool:80" "/c:/w/d.pddl" hgenerated htool rfl
  refine ⟨hpath, (hnames _ _ hpath).2, hunhosted "git" "/c%3A/w/d.pddl" hgit rfl (by decide), ?_⟩
  obtain ⟨-, -, problem, domain, -, hdomain, huri, -⟩ := resolved_foldersRun
  refine ⟨problem, domain, hdomain, huri, ?_⟩
  have hsame := (hmoved ((empty {}).run foldersRun) atRevision problem
    (relocates_atRevision problem) fun g _ => relocates_atRevision g).1
  rw [hsame, hdomain]
  rfl

end Pddl.Project
