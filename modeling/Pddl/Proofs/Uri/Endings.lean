/-
  Pddl.Proofs.Uri.Endings — the language of a file by its name and by its URI.

  A name gives a language when it ends in a dot and the name of the language, in any case
  (`Language.EndsIn`). Marks that divide a URI belong to no such ending, so that a text ends as what
  stands behind its last mark does (`endsIn_behind_mark`). The file name of a URI ends as its path
  does, and where the URI itself ends depends on its shape:
  - `ofFileName?_behind`: a URI with a query or a fragment ends as what stands behind the mark;
  - `ofFileName?_host`: a URI without a path ends as its authority;
  - `ofFileName?_rawPath`: any other ends as its path is written, with escapes not decoded;
  - `ofFileName?_fileName_of_rawPath`: decoding changes no ending that is written without escapes.
  `Misleads` says when these are not the end of the file name, and `language_of_file_name_iff` that
  the URI gives the language of the file name in all other cases, and only in these.
-/

import Pddl.Proofs.Uri.Escapes
import Pddl.Proofs.Uri.Paths
import Pddl.Reader

namespace Pddl

theorem Text.splitLast?_eq_some_iff {sep : Char} {cs front back : List Char} :
    splitLast? sep cs = some (front, back) ↔ cs = front ++ sep :: back ∧ sep ∉ back := by
  constructor
  · intro h
    unfold splitLast? at h
    simp only at h
    split at h
    · cases h
    · rename_i d front' hdrop
      have hd : d = sep := by
        have hhead : d ∈ (cs.reverse.dropWhile (· != sep)).head? := by rw [hdrop]; rfl
        have hstop := head?_dropWhile d hhead
        simpa using hstop
      have hparts := List.takeWhile_append_dropWhile (p := (· != sep)) (l := cs.reverse)
      obtain ⟨rfl, rfl⟩ := Prod.mk.inj (Option.some.inj h)
      rw [hdrop, hd] at hparts
      refine ⟨?_, ?_⟩
      · have hcs := congrArg List.reverse hparts
        simpa using hcs.symm
      · rw [List.mem_reverse]
        intro hmem
        simpa using List.mem_takeWhile_imp hmem
  · rintro ⟨rfl, hback⟩
    have hall : ∀ c ∈ back.reverse, (c != sep) = true := by
      simpa using fun c hc => ne_of_mem_of_not_mem hc hback
    have hstop : ∀ c ∈ (sep :: front.reverse).head?, (c != sep) = false := by simp
    obtain ⟨htake, hdrop⟩ := takeWhile_append_stop hall hstop
    have hreverse : (front ++ sep :: back).reverse = back.reverse ++ sep :: front.reverse := by simp
    simp only [splitLast?, hreverse, htake, hdrop, List.reverse_reverse]

namespace Language

variable {l : Language} {cs front behind ending : List Char} {c : Char} {name : String}

theorem ofName?_eq_some_iff : ofName? name = some l ↔ Text.foldCase name = l.name := by
  constructor
  · intro h
    have hname := List.find?_some h
    exact (beq_iff_eq.mp hname).symm
  · intro h
    rw [ofName?, h]
    cases l <;> rfl

def EndsIn (l : Language) (cs : List Char) : Prop :=
  ∃ front ending, cs = front ++ '.' :: ending ∧ ending.map Char.toLower = l.name.toList

def Foreign (c : Char) : Prop := ∀ l : Language, c.toLower ∉ l.name.toList

theorem foreign_of_mem (h : c ∈ ['.', '/', ':', '?', '#', '%', '\\']) : Foreign c := by
  intro l
  simp only [List.mem_cons, List.not_mem_nil, or_false] at h
  rcases h with rfl | rfl | rfl | rfl | rfl | rfl | rfl <;> cases l <;> decide

theorem Foreign.not_mem (hc : Foreign c) (h : ending.map Char.toLower = l.name.toList) :
    c ∉ ending := by
  intro hmem
  have hlower : c.toLower ∈ ending.map Char.toLower := List.mem_map_of_mem hmem
  rw [h] at hlower
  exact hc l hlower

theorem ofFileName?_eq_some_iff : ofFileName? name = some l ↔ EndsIn l name.toList := by
  unfold ofFileName?
  constructor
  · intro h
    split at h
    · rename_i front ending hsplit
      obtain ⟨hname, -⟩ := Text.splitLast?_eq_some_iff.mp hsplit
      rw [ofName?_eq_some_iff] at h
      refine ⟨front, ending, hname, ?_⟩
      rw [← h]
      simp [Text.foldCase]
    · cases h
  · rintro ⟨front, ending, hname, hending⟩
    have hdot : '.' ∉ ending := (foreign_of_mem (by simp)).not_mem hending
    rw [Text.splitLast?_eq_some_iff.mpr ⟨hname, hdot⟩]
    simp only
    rw [ofName?_eq_some_iff, Text.foldCase, String.toList_ofList, hending, String.ofList_toList]

/-- A text ends as what stands behind a foreign character in it. -/
theorem endsIn_behind (hc : Foreign c) (hdot : c ≠ '.') :
    EndsIn l (front ++ c :: behind) ↔ EndsIn l behind := by
  constructor
  · rintro ⟨front', ending, heq, hending⟩
    rcases List.append_eq_append_iff.mp heq with ⟨more, -, htail⟩ | ⟨more, -, htail⟩
    · cases more with
      | nil => exact absurd (List.cons.inj htail).1 hdot
      | cons d more => exact ⟨more, ending, (List.cons.inj htail).2, hending⟩
    · -- the character would stand at the dot or in the ending
      cases more with
      | nil => exact absurd (List.cons.inj htail).1.symm hdot
      | cons d more =>
        have hmem : c ∈ ending := by simp [(List.cons.inj htail).2]
        exact absurd hmem (hc.not_mem hending)
  · rintro ⟨front', ending, rfl, hending⟩
    exact ⟨front ++ c :: front', ending, by simp, hending⟩

theorem endsIn_behind_mark (hc : c ∈ ['/', ':', '?', '#']) :
    EndsIn l (front ++ c :: behind) ↔ EndsIn l behind := by
  have hmarks : ['/', ':', '?', '#'] ⊆ ['.', '/', ':', '?', '#', '%', '\\'] := by simp
  refine endsIn_behind (foreign_of_mem (hmarks hc)) ?_
  rintro rfl
  simp at hc

/-- Two texts that end in the same languages have the same. -/
theorem ofFileName?_eq_iff {other : String} : ofFileName? name = ofFileName? other ↔
    ∀ l, EndsIn l name.toList ↔ EndsIn l other.toList := by
  simp only [← ofFileName?_eq_some_iff]
  exact Option.ext_iff

end Language

namespace Uri

open Pddl.Language (EndsIn endsIn_behind_mark foreign_of_mem)

variable {l : Language} {cs rest : List Char} {uri : String}

/-! ## The file name -/

/-- The file name ends as the path does. -/
theorem endsIn_fileName : EndsIn l (fileName uri).toList ↔ EndsIn l (path uri) := by
  unfold fileName
  split
  · rename_i folder name hsplit
    obtain ⟨hpath, -⟩ := Text.splitLast?_eq_some_iff.mp hsplit
    rw [hpath, endsIn_behind_mark (by simp), String.toList_ofList]
  · rw [String.toList_ofList]

theorem decodeEscapes_plain (h : '%' ∉ cs) : decodeEscapes cs = cs := by
  have hescapes : Escapes cs cs := by
    induction cs with
    | nil => exact .nil
    | cons c cs ih =>
      rw [List.mem_cons, not_or] at h
      exact .plain (Ne.symm h.1) (ih h.2)
  rw [decodeEscapes, unescape_encode hescapes, Text.decodeLossy_encode]

theorem apart_dot : Apart (UInt8.ofNat '.'.toNat) := by
  refine ⟨by decide, by decide, ?_⟩
  intro value h
  exact absurd h.le_toNat (by decide)

/-- An ending that is written in the path without escapes is an ending of the path. -/
theorem endsIn_path (h : EndsIn l (rawPath uri.toList)) : EndsIn l (path uri) := by
  obtain ⟨front, ending, hraw, hending⟩ := h
  have hplain : decodeEscapes ending = ending :=
    decodeEscapes_plain ((foreign_of_mem (by simp)).not_mem hending)
  have hbackslash : '\\' ∉ ending := (foreign_of_mem (by simp)).not_mem hending
  have hslashes : ending.map (fun c => if c = '\\' then '/' else c) = ending := by
    rw [List.map_congr_left (g := id), List.map_id]
    intro c hc
    exact if_neg (ne_of_mem_of_not_mem hc hbackslash)
  refine ⟨(decodeEscapes front).map fun c => if c = '\\' then '/' else c, ending, ?_, hending⟩
  rw [path, hraw, decodeEscapes_append_apart (by decide) apart_dot, hplain, List.map_append,
    List.map_cons, hslashes]
  rfl

theorem not_endsIn_path_of_nil (h : rawPath uri.toList = []) : ¬ EndsIn l (path uri) := by
  have hpath : path uri = [] := by
    rw [path, h]
    rfl
  rw [hpath]
  rintro ⟨front, ending, heq, -⟩
  simp at heq

/-! ## The end of a URI -/

/-- What stands in front of the query is everything, where there is none. -/
theorem beforeQuery_eq_self (h : ∀ c ∈ cs, ¬ EndsPath c) : beforeQuery cs = cs := by
  rw [beforeQuery, List.takeWhile_eq_self_iff]
  intro c hc
  have hmarks := h c hc
  simpa [EndsPath, not_or] using hmarks

/-- An authority is cut off if there is one. -/
theorem afterAuthority_cases (rest : List Char) : afterAuthority rest = rest ∨
    ∃ authority, IsAuthority authority ∧
      rest = '/' :: '/' :: (authority ++ afterAuthority rest) ∧
      ∀ c ∈ (afterAuthority rest).head?, endsAuthority c = true := by
  by_cases hslashes : ['/', '/'] <+: rest
  · obtain ⟨behind, rfl⟩ := hslashes
    refine .inr ⟨behind.takeWhile (!endsAuthority ·), ?_, ?_, ?_⟩
    · rw [isAuthority_iff_all]
      exact List.all_takeWhile
    · show _ = '/' :: '/' :: (_ ++ behind.dropWhile _)
      rw [List.takeWhile_append_dropWhile]
      rfl
    · intro c hc
      have hstop : (!endsAuthority c) = false := Text.head?_dropWhile c hc
      simpa using hstop
  · exact .inl (afterAuthority_eq_self hslashes)

/-- A URI that has neither a query nor a fragment ends as its path is written, unless it has an
authority and no path. -/
theorem endsIn_iff_rawPath (hmarks : ∀ c ∈ cs, ¬ EndsPath c) :
    (∀ l, EndsIn l cs ↔ EndsIn l (rawPath cs)) ∨
    ∃ scheme authority, IsScheme scheme ∧ IsAuthority authority ∧
      cs = scheme ++ ':' :: '/' :: '/' :: authority := by
  cases hscheme : afterScheme? cs with
  | none =>
    have hraw : rawPath cs = cs := by
      simp only [rawPath, hscheme]
      exact beforeQuery_eq_self hmarks
    left
    intro l
    rw [hraw]
  | some rest =>
    have hraw : rawPath cs = beforeQuery (afterAuthority rest) := by simp only [rawPath, hscheme]
    obtain ⟨scheme, hIs, rfl⟩ := afterScheme?_eq_some_iff.mp hscheme
    have hrest : ∀ c ∈ rest, ¬ EndsPath c := by
      intro c hc
      exact hmarks c (by simp [hc])
    rcases afterAuthority_cases rest with hself | ⟨authority, hauthority, hparts, hstop⟩
    · left
      intro l
      rw [hraw, hself, beforeQuery_eq_self hrest, endsIn_behind_mark (by simp)]
    · generalize afterAuthority rest = tail at *
      have htail : ∀ c ∈ tail, ¬ EndsPath c := by
        intro c hc
        exact hrest c (by simp [hparts, hc])
      rw [beforeQuery_eq_self htail] at hraw
      cases tail with
      | nil => exact .inr ⟨scheme, authority, hIs, hauthority, by simp [hparts]⟩
      | cons c tail =>
        have hc : c = '/' := by
          have hends := hstop c rfl
          have hno := htail c (by simp)
          simp only [endsAuthority, Bool.or_eq_true, beq_iff_eq] at hends
          unfold EndsPath at hno
          tauto
        have hfront : scheme ++ ':' :: rest =
            (scheme ++ ':' :: '/' :: '/' :: authority) ++ '/' :: tail := by simp [hparts, hc]
        left
        intro l
        have hpath : EndsIn l ([] ++ '/' :: tail) ↔ EndsIn l tail := endsIn_behind_mark (by simp)
        rw [hraw, hc, hfront, endsIn_behind_mark (by simp)]
        exact hpath.symm

/-- The ways in which the end of a URI is not the end of its file name. -/
inductive Misleads (uri : String) : Prop
  /-- The query or the fragment has another ending. -/
  | behind (front behind : List Char) (mark : Char) :
      uri.toList = front ++ mark :: behind → (∀ c ∈ front, ¬ EndsPath c) → EndsPath mark →
      Language.ofFileName? (String.ofList behind) ≠ Language.ofFileName? (fileName uri) →
      Misleads uri
  /-- There is no path, and the authority ends like the name of a file. -/
  | host (scheme authority : List Char) :
      IsScheme scheme → IsAuthority authority →
      uri.toList = scheme ++ ':' :: '/' :: '/' :: authority →
      Language.ofFileName? (String.ofList authority) ≠ none → Misleads uri
  /-- The file name has an ending that is written with escapes. -/
  | escaped :
      (∀ c ∈ uri.toList, ¬ EndsPath c) →
      Language.ofFileName? (String.ofList (rawPath uri.toList)) = none →
      Language.ofFileName? (fileName uri) ≠ none → Misleads uri

theorem ofFileName?_eq_none_iff {name : String} :
    Language.ofFileName? name = none ↔ ∀ l, ¬ EndsIn l name.toList := by
  simp only [Option.eq_none_iff_forall_ne_some, ne_eq, Language.ofFileName?_eq_some_iff]

theorem ofFileName?_behind {front behind : List Char} {mark : Char} (hmark : EndsPath mark)
    (huri : uri.toList = front ++ mark :: behind) :
    Language.ofFileName? uri = Language.ofFileName? (String.ofList behind) := by
  rw [Language.ofFileName?_eq_iff]
  intro l
  rw [huri, String.toList_ofList, endsIn_behind_mark]
  rcases hmark with rfl | rfl <;> simp

/-- A URI is its scheme and its authority. -/
theorem ofFileName?_host {scheme authority : List Char} (hscheme : IsScheme scheme)
    (hauthority : IsAuthority authority)
    (huri : uri.toList = scheme ++ ':' :: '/' :: '/' :: authority) :
    Language.ofFileName? uri = Language.ofFileName? (String.ofList authority) ∧
      Language.ofFileName? (fileName uri) = none := by
  constructor
  · have hfront : uri.toList = (scheme ++ [':', '/']) ++ '/' :: authority := by simp [huri]
    rw [Language.ofFileName?_eq_iff]
    intro l
    rw [hfront, String.toList_ofList, endsIn_behind_mark (by simp)]
  · have hraw : rawPath uri.toList = [] := by
      have hall : ∀ c ∈ authority, (!endsAuthority c) = true :=
        List.all_eq_true.mp (isAuthority_iff_all.mp hauthority)
      rw [rawPath, huri, afterScheme?_scheme hscheme]
      simp only [afterAuthority]
      rw [List.dropWhile_eq_nil_iff.mpr hall]
      rfl
    rw [ofFileName?_eq_none_iff]
    intro l
    rw [endsIn_fileName]
    exact not_endsIn_path_of_nil hraw

theorem ofFileName?_rawPath (hmarks : ∀ c ∈ uri.toList, ¬ EndsPath c) :
    Language.ofFileName? uri = Language.ofFileName? (String.ofList (rawPath uri.toList)) ∨
    ∃ scheme authority, IsScheme scheme ∧ IsAuthority authority ∧
      uri.toList = scheme ++ ':' :: '/' :: '/' :: authority := by
  refine (endsIn_iff_rawPath hmarks).imp_left fun hends => ?_
  rw [Language.ofFileName?_eq_iff, String.toList_ofList]
  exact hends

/-- Decoding keeps the language of a path that has one as it is written. -/
theorem ofFileName?_fileName_of_rawPath
    (h : Language.ofFileName? (String.ofList (rawPath uri.toList)) = some l) :
    Language.ofFileName? (fileName uri) = some l := by
  rw [Language.ofFileName?_eq_some_iff, String.toList_ofList] at h
  rw [Language.ofFileName?_eq_some_iff, endsIn_fileName]
  exact endsIn_path h

theorem exists_first_mark (cs : List Char) : (∀ c ∈ cs, ¬ EndsPath c) ∨
    ∃ front mark behind, cs = front ++ mark :: behind ∧ (∀ c ∈ front, ¬ EndsPath c) ∧
      EndsPath mark := by
  induction cs with
  | nil => exact .inl (List.forall_mem_nil _)
  | cons c cs ih =>
    by_cases hc : EndsPath c
    · exact .inr ⟨[], c, cs, rfl, List.forall_mem_nil _, hc⟩
    · rcases ih with hnone | ⟨front, mark, behind, rfl, hfront, hmark⟩
      · exact .inl (List.forall_mem_cons.mpr ⟨hc, hnone⟩)
      · exact .inr ⟨c :: front, mark, behind, rfl, List.forall_mem_cons.mpr ⟨hc, hfront⟩, hmark⟩

theorem Misleads.ne (h : Misleads uri) :
    Language.ofFileName? uri ≠ Language.ofFileName? (fileName uri) := by
  cases h with
  | behind front behind mark huri hfront hmark hne => rwa [ofFileName?_behind hmark huri]
  | host scheme authority hscheme hauthority huri hne =>
    obtain ⟨hread, hname⟩ := ofFileName?_host hscheme hauthority huri
    rwa [hread, hname]
  | escaped hmarks hraw hne =>
    rcases ofFileName?_rawPath hmarks with hread | ⟨scheme, authority, hscheme, hauthority, huri⟩
    · rw [hread, hraw]
      exact Ne.symm hne
    · exact absurd (ofFileName?_host hscheme hauthority huri).2 hne

theorem misleads_of_ne (h : Language.ofFileName? uri ≠ Language.ofFileName? (fileName uri)) :
    Misleads uri := by
  rcases exists_first_mark uri.toList with hmarks | ⟨front, mark, behind, huri, hfront, hmark⟩
  · rcases ofFileName?_rawPath hmarks with hread | ⟨scheme, authority, hscheme, hauthority, huri⟩
    · rw [hread] at h
      cases hraw : Language.ofFileName? (String.ofList (rawPath uri.toList)) with
      | none => exact .escaped hmarks hraw (Ne.symm (hraw ▸ h))
      | some l => exact absurd (hraw.trans (ofFileName?_fileName_of_rawPath hraw).symm) h
    · obtain ⟨hread, hname⟩ := ofFileName?_host hscheme hauthority huri
      rw [hread, hname] at h
      exact .host scheme authority hscheme hauthority huri h
  · rw [ofFileName?_behind hmark huri] at h
    exact .behind front behind mark huri hfront hmark h

theorem ofFileName?_fileName_iff :
    Language.ofFileName? uri = Language.ofFileName? (fileName uri) ↔ ¬ Misleads uri := by
  constructor
  · intro heq h
    exact h.ne heq
  · intro h
    by_contra hne
    exact h (misleads_of_ne hne)

/-- The end of a URI gives the language of its file name if and only if it does not mislead. Of two
URIs of one file name that do not mislead, a plan is recognized under the one as it is under the
other. -/
theorem language_of_file_name_iff (uri : String) :
    (Language.ofFileName? uri = Language.ofFileName? (fileName uri) ↔ ¬ Misleads uri) ∧
    ∀ (s : Source) (plain : String), fileName plain = fileName uri → ¬ Misleads uri →
      ¬ Misleads plain →
      Reader.plan.read { s with uri := plain } = Reader.plan.read { s with uri := uri } := by
  refine ⟨ofFileName?_fileName_iff, ?_⟩
  intro s plain hname huri hplain
  have hlanguage : Language.ofFileName? plain = Language.ofFileName? uri := by
    rw [ofFileName?_fileName_iff.mpr hplain, ofFileName?_fileName_iff.mpr huri, hname]
  have hverdict : Reader.scheduleVerdict { s with uri := plain } =
      Reader.scheduleVerdict { s with uri := uri } := by
    unfold Reader.scheduleVerdict
    rw [hlanguage]
  show Except.ok (if _ then _ else _) = Except.ok (if _ then _ else _)
  rw [hverdict]

def opened (uri : String) : Source :=
  let cs := "(move a b)".toList
  ⟨uri, 1, .pddl, Tree.ofText cs, Locator.ofText cs⟩

theorem opened_read (uri : String) : Reader.plan.read (opened uri) =
    .ok (if Language.ofFileName? uri = some .plan then
      .recognized (.plan (Schedule.read (opened uri).tree)) else .declined) := by
  have hbegins : ¬ Schedule.beginsWithDefinition (opened uri).tree = true := by
    show ¬ Schedule.beginsWithDefinition (Tree.ofText "(move a b)".toList) = true
    decide +kernel
  show Except.ok (if Schedule.beginsWithDefinition (opened uri).tree then _ else _) = _
  rw [if_neg hbegins]
  rfl

/-- A dot in a folder, escapes in front of the ending and another scheme do not mislead. -/
theorem a_plan_of_another_scheme_is_recognized :
    let uri := "git:/c%3A/w.pddl%2Fp%20q.plan"
    let plain := "file:///c:/w.pddl/p q.plan"
    fileName plain = fileName uri ∧ ¬ Misleads uri ∧ ¬ Misleads plain ∧
      Reader.plan.read (opened plain) = Reader.plan.read (opened uri) ∧
      Reader.plan.read (opened uri) =
        .ok (.recognized (.plan (Schedule.read (opened uri).tree))) := by
  intro uri plain
  obtain ⟨hiff, hread⟩ := language_of_file_name_iff uri
  have hname : fileName plain = fileName uri := by decide +kernel
  have huri : ¬ Misleads uri := hiff.mp (by decide +kernel)
  have hplain : ¬ Misleads plain := ofFileName?_fileName_iff.mp (by decide +kernel)
  have hplan : Language.ofFileName? uri = some .plan := by decide +kernel
  refine ⟨hname, huri, hplain, hread (opened uri) plain hname huri hplain, ?_⟩
  rw [opened_read, if_pos hplan]

/-- Under a URI with a query a plan is not recognized, although its file name ends in the language
of plans. An escaped dot hides the language too, and an authority may feign one. -/
theorem a_query_hides_the_language :
    Language.ofFileName? "file:///w/p.plan?ref=HEAD" = none ∧
      Language.ofFileName? (fileName "file:///w/p.plan?ref=HEAD") = some .plan ∧
      Reader.plan.read (opened "file:///w/p.plan?ref=HEAD") = .ok .declined ∧
      Reader.plan.read (opened "file:///w/p.plan") =
        .ok (.recognized (.plan (Schedule.read (opened "file:///w/p.plan").tree))) ∧
      Language.ofFileName? "file:///w/p%2Eplan" = none ∧
      Language.ofFileName? (fileName "file:///w/p%2Eplan") = some .plan ∧
      Language.ofFileName? "file://w.plan" = some .plan ∧
      Language.ofFileName? (fileName "file://w.plan") = none := by
  have hquery : Language.ofFileName? "file:///w/p.plan?ref=HEAD" = none := by decide +kernel
  have hplain : Language.ofFileName? "file:///w/p.plan" = some .plan := by decide +kernel
  refine ⟨hquery, by decide +kernel, ?_, ?_, by decide +kernel, by decide +kernel,
    by decide +kernel, by decide +kernel⟩
  · rw [opened_read, hquery, if_neg (by simp)]
  · rw [opened_read, if_pos hplain]

end Uri

end Pddl
