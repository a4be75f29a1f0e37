/-
  Pddl.Proofs.Types.Objects — a catalog is the summary of what was declared.

  A log lists declarations, each a type with objects. `ofLog` says at once what a catalog built
  from a log holds: the types under their first spellings, and for each type the objects that the
  log lists for it, in both places without repetitions.
  - `declare_ofLog`: declaring extends the log, so whatever declares one after another
    (`foldl_declare_ofLog`), from a typed list or from a graph, gives the summary of a log;
  - `objectsOf_ofLog`: looking a type up gives what the log lists for it;
  - `merge_ofLog`: merging is appending logs. The second catalog is declared by its own entries and
    not by its log, and these entries, read as a log, say the same (`listed_entries_ofLog`).
  Dropping repetitions is one function of the "same" relation, of names and of objects, and its
  laws stand first.
-/

import Mathlib.Data.List.Induction
import Pddl.Catalog

namespace Pddl.Catalog

/-! ## Lists without repetitions -/

section Repetitions

variable {α : Type} {same : α → α → Bool} {p : α → Bool}

theorem loop_concat (a : α) (l kept : List α) :
    List.eraseDupsBy.loop same (l ++ [a]) kept =
      if (List.eraseDupsBy.loop same l kept).any (same a) then List.eraseDupsBy.loop same l kept
      else List.eraseDupsBy.loop same l kept ++ [a] := by
  induction l generalizing kept with
  | nil =>
    simp only [List.nil_append, List.eraseDupsBy.loop, List.any_reverse]
    cases kept.any (same a) <;> simp
  | cons b l ih =>
    cases hb : kept.any (same b) with
    | true => simpa only [List.cons_append, List.eraseDupsBy.loop, hb] using ih kept
    | false => simpa only [List.cons_append, List.eraseDupsBy.loop, hb] using ih (b :: kept)

/-- The last element stays unless one that stays before it is the same. -/
theorem eraseDupsBy_concat (a : α) (l : List α) :
    (l ++ [a]).eraseDupsBy same =
      if (l.eraseDupsBy same).any (same a) then l.eraseDupsBy same
      else l.eraseDupsBy same ++ [a] :=
  loop_concat a l []

theorem pairwise_eraseDupsBy (l : List α) :
    (l.eraseDupsBy same).Pairwise fun a b => same b a = false := by
  induction l using List.reverseRecOn with
  | nil => exact .nil
  | append_singleton l b ih =>
    rw [eraseDupsBy_concat]
    split
    · exact ih
    · rename_i hnew
      apply List.pairwise_append.mpr
      refine ⟨ih, List.pairwise_singleton _ b, ?_⟩
      intro a ha c hc
      rw [List.mem_singleton.mp hc]
      simpa using fun h => hnew (List.any_eq_true.mpr ⟨a, ha, h⟩)

/-- Without repetitions nothing is dropped. -/
theorem eraseDupsBy_of_pairwise {l : List α} (h : l.Pairwise fun a b => same b a = false) :
    l.eraseDupsBy same = l := by
  induction l using List.reverseRecOn with
  | nil => rfl
  | append_singleton l b ih =>
    obtain ⟨hl, -, hnew⟩ := List.pairwise_append.mp h
    rw [eraseDupsBy_concat, ih hl]
    apply if_neg
    rw [Bool.not_eq_true, List.any_eq_false]
    intro a ha
    simp [hnew a ha b List.mem_cons_self]

/-- The first element that passes a test is no repetition, if the same elements pass it. -/
theorem find?_eraseDupsBy (hp : ∀ a b, same a b = true → p a = p b) (l : List α) :
    (l.eraseDupsBy same).find? p = l.find? p := by
  induction l using List.reverseRecOn with
  | nil => rfl
  | append_singleton l b ih =>
    rw [eraseDupsBy_concat, List.find?_append, ← ih]
    by_cases hb : (l.eraseDupsBy same).any (same b)
    · rw [if_pos hb]
      obtain ⟨a, ha, hab⟩ := List.any_eq_true.mp hb
      cases hfind : (l.eraseDupsBy same).find? p with
      | some c => rfl
      | none =>
        -- then `b` fails the test as well as the element that it repeats
        have hpa : ¬ p a = true := List.find?_eq_none.mp hfind a ha
        simp [hp b a hab, hpa]
    · rw [if_neg hb, List.find?_append]

/-- Where at most one element passes a test, filtering is finding. -/
theorem filter_eq_find? {l : List α}
    (h : l.Pairwise fun a b => p a = true → p b = false) : l.filter p = (l.find? p).toList := by
  induction l with
  | nil => rfl
  | cons a l ih =>
    obtain ⟨hfirst, hrest⟩ := List.pairwise_cons.mp h
    cases ha : p a with
    | false => rw [List.filter_cons_of_neg (by simp [ha]), List.find?_cons_of_neg (by simp [ha]),
        ih hrest]
    | true =>
      have hnone : l.filter p = [] := by
        apply List.filter_eq_nil_iff.mpr
        intro b hb
        simp [hfirst b hb ha]
      rw [List.filter_cons_of_pos ha, List.find?_cons_of_pos ha, hnone, Option.toList_some]

variable (htrans : ∀ a b c, same a b = true → same b c = true → same a c = true)
include htrans

theorem any_eraseDupsBy (a : α) (l : List α) :
    (l.eraseDupsBy same).any (same a) = l.any (same a) := by
  induction l using List.reverseRecOn with
  | nil => rfl
  | append_singleton l b ih =>
    rw [eraseDupsBy_concat, List.any_append, ← ih]
    by_cases hb : (l.eraseDupsBy same).any (same b)
    · -- what is the same as `b` is the same as the element that `b` repeats
      rw [if_pos hb]
      cases hab : same a b with
      | false => simp [hab]
      | true =>
        obtain ⟨c, hc, hbc⟩ := List.any_eq_true.mp hb
        rw [List.any_eq_true.mpr ⟨c, hc, htrans a b c hab hbc⟩, Bool.true_or]
    · rw [if_neg hb, List.any_append]

/-- Elements that are all repetitions leave nothing behind. -/
theorem eraseDupsBy_append_of_any {l m : List α} (h : ∀ a ∈ m, l.any (same a) = true) :
    (l ++ m).eraseDupsBy same = l.eraseDupsBy same := by
  induction m using List.reverseRecOn with
  | nil => rw [List.append_nil]
  | append_singleton m a ih =>
    have hm := ih fun b hb => h b (List.mem_append_left _ hb)
    have ha : (l.eraseDupsBy same).any (same a) = true := by
      rw [any_eraseDupsBy htrans]
      exact h a (List.mem_append_right _ (List.mem_singleton_self a))
    rw [← List.append_assoc, eraseDupsBy_concat, hm, if_pos ha]

/-- It does not matter if repetitions were dropped from the second list before. -/
theorem eraseDupsBy_append_eraseDupsBy (l m : List α) :
    (l ++ m.eraseDupsBy same).eraseDupsBy same = (l ++ m).eraseDupsBy same := by
  induction m using List.reverseRecOn with
  | nil => rfl
  | append_singleton m a ih =>
    rw [eraseDupsBy_concat, ← List.append_assoc, eraseDupsBy_concat]
    by_cases ha : (m.eraseDupsBy same).any (same a)
    · have hboth : ((l ++ m).eraseDupsBy same).any (same a) = true := by
        rw [any_eraseDupsBy htrans, List.any_append, ← any_eraseDupsBy htrans a m, ha, Bool.or_true]
      rw [if_pos ha, if_pos hboth, ih]
    · rw [if_neg ha, ← List.append_assoc, eraseDupsBy_concat, ih]

end Repetitions

/-! ## The summary of a log -/

def spellings (log : List Entry) : List String :=
  (log.map (·.type)).eraseDupsBy Text.sameName

def listed (log : List Entry) (type : String) : List String :=
  (log.filter fun d => Text.sameName d.type type).flatMap (·.objects)

/-- The entry of a type: the objects declared for it, in the order of first occurrence. -/
def entryOf (log : List Entry) (type : String) : Entry := ⟨type, (listed log type).eraseDups⟩

/-- The catalog of a log: an entry for each type, in the order of first declaration and as first
spelled. -/
def ofLog (log : List Entry) : Catalog := ⟨(spellings log).map (entryOf log)⟩

variable {log : List Entry} {a b type : String}

theorem listed_append (log more : List Entry) (type : String) :
    listed (log ++ more) type = listed log type ++ listed more type := by
  unfold listed
  rw [List.filter_append, List.flatMap_append]

theorem listed_congr (h : Text.sameName a b = true) : listed log a = listed log b := by
  unfold listed Text.sameName
  rw [Text.sameName_iff.mp h]

theorem listed_eq_nil (h : (spellings log).any (Text.sameName type) = false) :
    listed log type = [] := by
  unfold spellings at h
  rw [any_eraseDupsBy Text.sameName_trans, List.any_map, List.any_eq_false] at h
  unfold listed
  rw [List.filter_eq_nil_iff.mpr, List.flatMap_nil]
  intro d hd
  rw [Text.sameName_comm]
  exact h d hd

theorem ofLog_congr {log more : List Entry} (hspellings : spellings log = spellings more)
    (hlisted : ∀ type, (listed log type).eraseDups = (listed more type).eraseDups) :
    ofLog log = ofLog more := by
  unfold ofLog entryOf
  simp only [hspellings, hlisted]

@[simp] theorem map_type_ofLog (log : List Entry) :
    (ofLog log).entries.map (·.type) = spellings log := by
  simp [ofLog, entryOf, Function.comp_def]

/-! ## Declaring -/

theorem eraseDups_concat (object : String) (objects : List String) :
    (objects ++ [object]).eraseDups =
      if object ∈ objects.eraseDups then objects.eraseDups else objects.eraseDups ++ [object] := by
  unfold List.eraseDups
  rw [eraseDupsBy_concat]
  simp only [List.any_beq, List.contains_iff_mem]

theorem add_eraseDups (type object : String) (objects : List String) :
    Entry.add ⟨type, objects.eraseDups⟩ object = ⟨type, (objects ++ [object]).eraseDups⟩ := by
  unfold Entry.add
  rw [eraseDups_concat]
  split <;> rfl

theorem addAll_eraseDups (type : String) (objects more : List String) :
    Entry.addAll ⟨type, objects.eraseDups⟩ more = ⟨type, (objects ++ more).eraseDups⟩ := by
  induction more generalizing objects with
  | nil => rw [List.append_nil]; rfl
  | cons object more ih =>
    calc Entry.addAll ⟨type, objects.eraseDups⟩ (object :: more)
        = Entry.addAll (Entry.add ⟨type, objects.eraseDups⟩ object) more := rfl
      _ = Entry.addAll ⟨type, (objects ++ [object]).eraseDups⟩ more := by rw [add_eraseDups]
      _ = ⟨type, (objects ++ [object] ++ more).eraseDups⟩ := ih _
      _ = ⟨type, (objects ++ object :: more).eraseDups⟩ := by simp

/-- One more declaration adds its objects to the entry of its type. -/
theorem entryOf_concat (log : List Entry) (d : Entry) (type : String) :
    entryOf (log ++ [d]) type =
      if Text.sameName type d.type then (entryOf log type).addAll d.objects
      else entryOf log type := by
  unfold entryOf
  rw [listed_append, Text.sameName_comm]
  by_cases h : Text.sameName d.type type
  · rw [if_pos h, addAll_eraseDups]
    simp [listed, h]
  · rw [if_neg h]
    simp [listed, h]

theorem spellings_concat (log : List Entry) (d : Entry) :
    spellings (log ++ [d]) =
      if (spellings log).any (Text.sameName d.type) then spellings log
      else spellings log ++ [d.type] := by
  unfold spellings
  rw [List.map_append]
  exact eraseDupsBy_concat d.type (log.map (·.type))

/-- Declaring extends the log. -/
theorem declare_ofLog (log : List Entry) (type : String) (objects : List String) :
    (ofLog log).declare type objects = ofLog (log ++ [⟨type, objects⟩]) := by
  have hany : ((ofLog log).entries.any fun e => Text.sameName e.type type) =
      (spellings log).any (Text.sameName type) := by
    rw [← map_type_ofLog, List.any_map]
    exact congrArg _ (funext fun e => Text.sameName_comm e.type type)
  unfold declare
  rw [hany]
  unfold ofLog
  rw [spellings_concat]
  by_cases hknown : (spellings log).any (Text.sameName type)
  · -- the entry of the type takes the objects, under the spelling that it has
    rw [if_pos hknown, if_pos hknown, List.map_map]
    congr 1
    apply List.map_congr_left
    intro s _
    rw [entryOf_concat]
    rfl
  · rw [if_neg hknown, if_neg hknown, List.map_append]
    have hnew : listed log type = [] := listed_eq_nil (Bool.not_eq_true _ ▸ hknown)
    have hold : ∀ s ∈ spellings log, ¬ Text.sameName s type = true := by
      intro s hs hsame
      exact hknown (List.any_eq_true.mpr ⟨s, hs, Text.sameName_comm type s ▸ hsame⟩)
    congr 2
    · apply List.map_congr_left
      intro s hs
      rw [entryOf_concat, if_neg (hold s hs)]
    · rw [List.map_singleton, entryOf_concat, if_pos (Text.sameName_iff.mpr rfl), entryOf, hnew]
      rfl

theorem foldl_declare_ofLog (log more : List Entry) :
    more.foldl (fun c d => c.declare d.type d.objects) (ofLog log) = ofLog (log ++ more) := by
  induction more generalizing log with
  | nil => rw [List.append_nil]; rfl
  | cons d more ih => rw [List.foldl_cons, declare_ofLog, ih, List.append_assoc]; rfl

/-- The catalog of a typed list is the summary of its groups. -/
theorem ofText_eq_ofLog (declaration : List Char) :
    ofText declaration =
      ofLog ((TypedList.groups declaration).map fun g => ⟨g.type?.getD "object", g.names⟩) := by
  rw [← List.nil_append (List.map _ _), ← foldl_declare_ofLog, List.foldl_map]
  rfl

/-! ## Looking up and merging -/

theorem find?_ofLog (log : List Entry) (type : String) :
    (ofLog log).find? type =
      ((spellings log).find? (Text.sameName · type)).map (entryOf log) := by
  unfold find? ofLog
  rw [List.find?_map]
  rfl

/-- The objects of a type are those that the log lists for it. -/
theorem objectsOf_ofLog (log : List Entry) (type : String) :
    (ofLog log).objectsOf type = (listed log type).eraseDups := by
  unfold objectsOf
  rw [find?_ofLog]
  cases hfind : (spellings log).find? (Text.sameName · type) with
  | some s =>
    have hsame : Text.sameName s type = true := by
      simpa using List.find?_some hfind
    rw [← listed_congr hsame]
    rfl
  | none =>
    have hnew : (spellings log).any (Text.sameName type) = false := by
      apply List.any_eq_false.mpr
      intro s hs
      rw [Text.sameName_comm]
      exact List.find?_eq_none.mp hfind s hs
    rw [listed_eq_nil hnew]
    rfl

/-- The entries of a catalog, read as a log, list for a type what the log lists for it. -/
theorem listed_entries_ofLog (log : List Entry) (type : String) :
    listed (ofLog log).entries type = (listed log type).eraseDups := by
  have hdistinct : (ofLog log).entries.Pairwise fun d e => Text.sameName e.type d.type = false :=
    List.pairwise_map.mpr (pairwise_eraseDupsBy _)
  have hone : (ofLog log).entries.Pairwise fun d e =>
      Text.sameName d.type type = true → Text.sameName e.type type = false := by
    apply hdistinct.imp
    intro d e hne hd
    apply Bool.eq_false_iff.mpr
    intro he
    rw [Text.sameName_trans _ type _ he (Text.sameName_comm d.type type ▸ hd)] at hne
    cases hne
  rw [← objectsOf_ofLog]
  unfold listed objectsOf find?
  rw [filter_eq_find? hone]
  cases (ofLog log).entries.find? fun e => Text.sameName e.type type with
  | none => rfl
  | some e => exact List.flatMap_singleton _ e

/-- Merging is appending logs. -/
theorem merge_ofLog (log more : List Entry) :
    (ofLog log).merge (ofLog more) = ofLog (log ++ more) := by
  unfold merge
  rw [foldl_declare_ofLog]
  apply ofLog_congr
  · unfold spellings
    rw [List.map_append, map_type_ofLog, List.map_append]
    exact eraseDupsBy_append_eraseDupsBy Text.sameName_trans _ _
  · intro type
    rw [listed_append, listed_entries_ofLog, listed_append]
    apply eraseDupsBy_append_eraseDupsBy
    exact fun _ _ _ => BEq.trans

/-- Declaring everything once more changes nothing. -/
theorem ofLog_append_self (log : List Entry) : ofLog (log ++ log) = ofLog log := by
  apply ofLog_congr
  · unfold spellings
    rw [List.map_append]
    apply eraseDupsBy_append_of_any Text.sameName_trans
    intro s hs
    exact List.any_eq_true.mpr ⟨s, hs, Text.sameName_iff.mpr rfl⟩
  · intro type
    rw [listed_append]
    apply eraseDupsBy_append_of_any
    · exact fun _ _ _ => BEq.trans
    · intro o ho
      exact List.any_eq_true.mpr ⟨o, ho, beq_self_eq_true o⟩

/-- Every way to make a catalog gives the summary of a log: declaring extends the log, a typed list
and a graph are read as logs, and merging appends logs. So merging is associative and idempotent
and the empty catalog changes nothing, and looking up does not depend on the case of a name. -/
theorem catalog_summarizes_log :
    (∀ log type object, (ofLog log).add type object = ofLog (log ++ [⟨type, [object]⟩])) ∧
    (∀ log type objects, (ofLog log).declare type objects = ofLog (log ++ [⟨type, objects⟩])) ∧
    (∀ declaration, ofText declaration =
      ofLog ((TypedList.groups declaration).map fun g => ⟨g.type?.getD "object", g.names⟩)) ∧
    (∀ g, ofDigraph g = ofLog (g.namedEdges.map fun e => ⟨e.2, [e.1]⟩)) ∧
    (∀ log more, (ofLog log).merge (ofLog more) = ofLog (log ++ more)) ∧
    (∀ l m n, ((ofLog l).merge (ofLog m)).merge (ofLog n) =
      (ofLog l).merge ((ofLog m).merge (ofLog n))) ∧
    (∀ log, (ofLog log).merge (ofLog log) = ofLog log) ∧
    (∀ log, (ofLog log).merge empty = ofLog log ∧ empty.merge (ofLog log) = ofLog log) ∧
    (∀ log type, (ofLog log).objectsOf type = (listed log type).eraseDups) ∧
    ∀ log a b, Text.sameName a b = true →
      (ofLog log).find? a = (ofLog log).find? b ∧
        (ofLog log).objectsOf a = (ofLog log).objectsOf b := by
  refine ⟨?_, declare_ofLog, ofText_eq_ofLog, ?_, merge_ofLog, ?_, ?_, ?_, objectsOf_ofLog, ?_⟩
  · intro log type object
    exact declare_ofLog log type [object]
  · intro g
    rw [← List.nil_append (List.map _ _), ← foldl_declare_ofLog, List.foldl_map]
    rfl
  · intro l m n
    rw [merge_ofLog, merge_ofLog, merge_ofLog, merge_ofLog, List.append_assoc]
  · intro log
    rw [merge_ofLog, ofLog_append_self]
  · intro log
    refine ⟨rfl, ?_⟩
    exact merge_ofLog [] log
  · intro log a b h
    have hfind : (ofLog log).find? a = (ofLog log).find? b := by
      unfold find? Text.sameName
      rw [Text.sameName_iff.mp h]
    refine ⟨hfind, ?_⟩
    unfold objectsOf
    rw [hfind]

def trucks : List Entry := [⟨"Truck", ["t1"]⟩, ⟨"city", []⟩, ⟨"truck", ["T1", "t1"]⟩]

/-- All spellings of a type share an entry, also those under which nothing was declared. -/
theorem spellings_share_an_entry :
    Text.sameName "TRUCK" "trucK" = true ∧
    (ofLog trucks).find? "TRUCK" = (ofLog trucks).find? "trucK" ∧
    (ofLog trucks).objectsOf "TRUCK" = ["t1", "T1"] := by
  obtain ⟨-, -, -, -, -, -, -, -, hobjects, hcase⟩ := catalog_summarizes_log
  have hsame : Text.sameName "TRUCK" "trucK" = true := by decide +kernel
  refine ⟨hsame, (hcase trucks _ _ hsame).1, ?_⟩
  rw [hobjects]
  decide +kernel

end Pddl.Catalog
