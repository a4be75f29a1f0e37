/-
  Pddl.Proofs.Types.RoundTrip — typed lists are read as they are written.

  A group is written as its names, a hyphen and its type, or as its names alone (`Group.words`),
  and a typed list as the words of its groups with blanks between them. Which blanks these are, and
  whether there are some around the list, is left open: `Spaced` says of which words a text is made
  up, and `spaced_iff` that these are the ones that are found in it.
  - `Writable.reads`: what can be written is read off its words again;
  - `Reads.eq_written`: words that were read are those of the groups, but for a hyphen at the end
    with nothing behind it;
  - `typed_lists_round_trip`: the same of texts.
-/

import Pddl.Proofs.Text.Runs
import Pddl.Proofs.Text.Words
import Pddl.Proofs.Types.Groups

namespace Pddl

namespace Text

variable {ws : List String} {cs : List Char}

/-- A text that is made up of words, in this order. Behind each word there is a blank or the end of
the text. -/
inductive Spaced : List String → List Char → Prop
  | nothing : Spaced [] []
  | blank {c : Char} {ws : List String} {cs : List Char} (hblank : isBlank c = true)
      (hrest : Spaced ws cs) : Spaced ws (c :: cs)
  | word {w : String} {ws : List String} {cs : List Char} (hword : Unbroken w.toList)
      (hapart : ∀ c ∈ cs.head?, isBlank c = true) (hrest : Spaced ws cs) :
      Spaced (w :: ws) (w.toList ++ cs)

theorem Spaced.words_eq (h : Spaced ws cs) : words cs = ws.map String.toList := by
  induction h with
  | nothing => rfl
  | blank hblank _ ih => rw [words, if_pos hblank, ih]
  | word hword hapart _ ih => rw [words_word hword hapart, ih, List.map_cons]

theorem Spaced.run {w : List Char} (h : Spaced ws cs) (hw : Unbroken w)
    (hapart : ∀ c ∈ cs.head?, isBlank c = true) : Spaced (String.ofList w :: ws) (w ++ cs) := by
  have hword : Unbroken (String.ofList w).toList := by rwa [String.toList_ofList]
  have hspaced := Spaced.word hword hapart h
  rwa [String.toList_ofList] at hspaced

/-- The first run of a text that does not begin with a blank is its first word. -/
theorem first_run {c : Char} (hc : isBlank c = false) (cs : List Char) :
    let run := (c :: cs).takeWhile (!isBlank ·)
    let rest := (c :: cs).dropWhile (!isBlank ·)
    run ++ rest = c :: cs ∧ Unbroken run ∧ (∀ d ∈ rest.head?, isBlank d = true) := by
  refine ⟨List.takeWhile_append_dropWhile, ⟨?_, ?_⟩, ?_⟩
  · rw [List.takeWhile_cons_of_pos (by simp [hc])]
    exact List.cons_ne_nil _ _
  · intro d hd
    simpa using List.mem_takeWhile_imp hd
  · intro d hd
    simpa using head?_dropWhile d hd

/-- Every text is made up of words: a blank is passed over, and any other character begins a run. -/
theorem exists_spaced (cs : List Char) : ∃ ws, Spaced ws cs := by
  generalize hlength : cs.length = n
  induction n using Nat.strong_induction_on generalizing cs with
  | _ n ih =>
    cases cs with
    | nil => exact ⟨[], .nothing⟩
    | cons c cs =>
      rw [List.length_cons] at hlength
      cases hc : isBlank c with
      | true =>
        obtain ⟨ws, hws⟩ := ih cs.length (by omega) cs rfl
        exact ⟨ws, .blank hc hws⟩
      | false =>
        obtain ⟨hparts, hrun, hrest⟩ := first_run hc cs
        have hpos := List.length_pos_iff.mpr hrun.1
        have hsum := congrArg List.length hparts
        rw [List.length_append, List.length_cons] at hsum
        obtain ⟨ws, hws⟩ := ih _ (by omega) ((c :: cs).dropWhile (!isBlank ·)) rfl
        rw [← hparts]
        exact ⟨_, hws.run hrun hrest⟩

end Text

namespace TypedList

open Text (Spaced Unbroken)

variable {declaration : List Char} {ws : List String} {groups : List Group}

/-- The words of a declaration are those that it is made up of. -/
theorem spaced_iff : Spaced ws declaration ↔ wordsOf declaration = ws := by
  have hwords : ∀ ws, Spaced ws declaration → wordsOf declaration = ws := by
    intro ws h
    rw [wordsOf, h.words_eq, List.map_map]
    exact (List.map_congr_left fun w _ => String.ofList_toList).trans (List.map_id ws)
  constructor
  · exact hwords ws
  · intro h
    obtain ⟨ws', hws'⟩ := Text.exists_spaced declaration
    rwa [← h, hwords ws' hws']

/-! ## Writing -/

def Group.words (group : Group) : List String :=
  match group.type? with
  | some type => group.names ++ ["-", type]
  | none => group.names

def written (groups : List Group) : List String := groups.flatMap Group.words

def IsName (name : String) : Prop := Unbroken name.toList ∧ name ≠ "-"

instance (name : String) : Decidable (IsName name) := inferInstanceAs (Decidable (_ ∧ _))

/-- Groups that can be written down. A type is any word; only the last group may have none, and has
names then. -/
inductive Writable : List Group → Prop
  | nothing : Writable []
  | untyped {names : List String} (hnames : ∀ name ∈ names, IsName name) (hne : names ≠ []) :
      Writable [⟨names, none⟩]
  | typed {names : List String} {type : String} {groups : List Group}
      (hnames : ∀ name ∈ names, IsName name) (htype : Unbroken type.toList)
      (hrest : Writable groups) : Writable (⟨names, some type⟩ :: groups)

theorem written_typed (names : List String) (type : String) (groups : List Group) :
    written (⟨names, some type⟩ :: groups) = names ++ "-" :: type :: written groups := by
  simp [written, Group.words]

theorem written_untyped (names : List String) : written [⟨names, none⟩] = names := by
  simp [written, Group.words]

/-- Groups that can be written are read off the words that they are written with. -/
theorem Writable.reads (h : Writable groups) : Reads (written groups) groups := by
  have hhyphen : ∀ names : List String, (∀ name ∈ names, IsName name) → "-" ∉ names :=
    fun _ hnames hmem => (hnames _ hmem).2 rfl
  induction h with
  | nothing => exact .nothing
  | @untyped names hnames hne =>
    rw [written_untyped]
    exact .untyped hne (hhyphen names hnames)
  | @typed names type groups hnames _ _ ih =>
    rw [written_typed]
    exact .typed (hhyphen names hnames) ih

/-- Words that were read are those that the groups are written with. A hyphen at the end with
nothing behind it is not written again, and its group may have no names. -/
theorem Reads.eq_written (h : Reads ws groups) (hwords : ∀ w ∈ ws, Unbroken w.toList) :
    Writable groups ∧ ws = written groups ∨ ws = written groups ++ ["-"] := by
  have hname : ∀ names : List String, "-" ∉ names → (∀ w ∈ names, Unbroken w.toList) →
      ∀ name ∈ names, IsName name :=
    fun names hnot hunbroken name hmem => ⟨hunbroken name hmem, fun e => hnot (e ▸ hmem)⟩
  induction h with
  | nothing => exact .inl ⟨.nothing, rfl⟩
  | @untyped names hne hnot =>
    exact .inl ⟨.untyped (hname names hnot hwords) hne, (written_untyped names).symm⟩
  | @dangling names hnot =>
    rw [written_untyped]
    exact .inr rfl
  | @typed names words type groups hnot _ ih =>
    rw [List.forall_mem_append, List.forall_mem_cons, List.forall_mem_cons] at hwords
    obtain ⟨hnames, -, htype, hrest⟩ := hwords
    rw [written_typed]
    rcases ih hrest with ⟨hwritable, e⟩ | e
    · exact .inl ⟨.typed (hname names hnot hnames) htype hwritable, by rw [← e]⟩
    · exact .inr (by simp [e])

/-- Writing and reading typed lists.
- The words of a text are the only ones that it is made up of.
- Groups that can be written are read again from every text that is made up of their words.
- Every text is made up of the words of the groups that are read from it, which can then be
  written; or of these words and of a hyphen behind all of them. -/
theorem typed_lists_round_trip :
    (∀ declaration ws, Spaced ws declaration ↔ wordsOf declaration = ws) ∧
    (∀ groups declaration, Writable groups → Spaced (written groups) declaration →
      TypedList.groups declaration = groups) ∧
    ∀ declaration,
      Writable (TypedList.groups declaration) ∧
          Spaced (written (TypedList.groups declaration)) declaration ∨
        Spaced (written (TypedList.groups declaration) ++ ["-"]) declaration := by
  refine ⟨fun _ _ => spaced_iff, ?_, ?_⟩
  · intro groups declaration hwritable hspaced
    have hreads := hwritable.reads
    rw [← spaced_iff.mp hspaced] at hreads
    exact (reads_iff.mp hreads).symm
  · intro declaration
    have hwords : ∀ w ∈ wordsOf declaration, Unbroken w.toList := by
      intro w hw
      obtain ⟨cs, hcs, rfl⟩ := List.mem_map.mp hw
      rw [String.toList_ofList]
      exact Text.unbroken_of_mem_words hcs
    simp only [spaced_iff]
    exact (reads_iff.mpr rfl).eq_written hwords

/-- A group without names, a hyphen for a type, blanks of several kinds, and a last group without a
type; and a hyphen that nothing follows. -/
theorem a_hyphen_may_be_a_type :
    let groups : List Group := [⟨["a", "b"], some "t"⟩, ⟨[], some "-"⟩, ⟨["c"], none⟩]
    let declaration := "a\r\n b -\tt\u00a0- - c ".toList
    Writable groups ∧ Spaced (written groups) declaration ∧
      TypedList.groups declaration = groups ∧
      Spaced (written (TypedList.groups "a - t -".toList) ++ ["-"]) "a - t -".toList := by
  intro groups declaration
  obtain ⟨hwords, hread, hwrite⟩ := typed_lists_round_trip
  have hlast : Writable [⟨["c"], none⟩] := .untyped (by decide) (by decide)
  have hwritable : Writable groups :=
    .typed (by decide) (by decide) (.typed (by decide) (by decide) hlast)
  have hspaced : Spaced (written groups) declaration := (hwords _ _).mpr (by decide +kernel)
  refine ⟨hwritable, hspaced, hread groups declaration hwritable hspaced, ?_⟩
  have hnot : wordsOf "a - t -".toList ≠ written (TypedList.groups "a - t -".toList) := by
    decide +kernel
  exact (hwrite "a - t -".toList).resolve_left fun h => hnot ((hwords _ _).mp h.2)

end TypedList

end Pddl
