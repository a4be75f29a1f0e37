/-
  Pddl.Proofs.Text.Words — the words of a text.

  Words are told apart by blanks only. A word in front of a blank, or at the end, is the first of
  the words (`words_word`), so that words with single blanks between them are found again
  (`words_joined`): a typed list that was read can be written down by its words alone
  (`groups_joined`). No letter is a blank, neither as a capital nor as a small one, so that a text
  in small letters has the same words in small letters (`words_lowered`).
-/

import Pddl.Text.Name
import Pddl.Text.Quoted
import Pddl.TypedList

namespace Pddl

namespace Text

def Unbroken (w : List Char) : Prop := w ≠ [] ∧ ∀ c ∈ w, isBlank c = false

instance (w : List Char) : Decidable (Unbroken w) :=
  have : Decidable (∀ c ∈ w, isBlank c = false) := List.decidableBAll _ w
  inferInstanceAs (Decidable (_ ∧ _))

theorem words_blanks {blanks : List Char} (h : ∀ c ∈ blanks, isBlank c = true) (cs : List Char) :
    words (blanks ++ cs) = words cs := by
  induction blanks with
  | nil => rfl
  | cons c blanks ih =>
    obtain ⟨hc, hblanks⟩ := List.forall_mem_cons.mp h
    rw [List.cons_append, words, if_pos hc, ih hblanks]

theorem words_word {w cs : List Char} (hw : Unbroken w) (hcs : ∀ c ∈ cs.head?, isBlank c = true) :
    words (w ++ cs) = w :: words cs := by
  obtain ⟨hne, hink⟩ := hw
  induction w with
  | nil => exact absurd rfl hne
  | cons c w ih =>
    obtain ⟨hc, hw⟩ := List.forall_mem_cons.mp hink
    rw [List.cons_append, words, if_neg (by simp [hc])]
    cases w with
    | nil =>
      have hstop : (cs.head?.map isBlank).getD true = true := by
        cases hhead : cs.head? with
        | none => rfl
        | some d => exact hcs d hhead
      exact if_pos hstop
    | cons d w =>
      have hgo : ¬ (((d :: w ++ cs).head?.map isBlank).getD true) = true := by
        simp [hw d List.mem_cons_self]
      rw [if_neg hgo, ih (List.cons_ne_nil d w) hw]
      rfl

theorem unbroken_of_mem_words {w cs : List Char} (h : w ∈ words cs) : Unbroken w := by
  induction cs generalizing w with
  | nil => cases h
  | cons c cs ih =>
    unfold words at h
    split at h
    · exact ih h
    · rename_i hc
      have hone : Unbroken [c] := ⟨List.cons_ne_nil _ _, by simpa using hc⟩
      split at h
      · rcases List.mem_cons.mp h with rfl | h
        · exact hone
        · exact ih h
      · cases hwords : words cs with
        | nil =>
          rw [hwords, extendFirst, List.mem_singleton] at h
          exact h ▸ hone
        | cons v vs =>
          rw [hwords, extendFirst] at h
          rcases List.mem_cons.mp h with rfl | h
          · have hv : Unbroken v := ih (by rw [hwords]; exact List.mem_cons_self)
            have hc : isBlank c = false := hone.2 c List.mem_cons_self
            exact ⟨List.cons_ne_nil _ _, List.forall_mem_cons.mpr ⟨hc, hv.2⟩⟩
          · exact ih (by rw [hwords]; exact List.mem_cons_of_mem _ h)

/-- Words with blanks between them are the words of what they make up. -/
theorem words_joined {ws : List String} (h : ∀ w ∈ ws, Unbroken w.toList) :
    words (joined " " ws).toList = ws.map String.toList := by
  rw [joined, String.toList_intercalate]
  induction ws with
  | nil => rfl
  | cons w ws ih =>
    obtain ⟨hw, hws⟩ := List.forall_mem_cons.mp h
    cases ws with
    | nil =>
      have hend : words (w.toList ++ []) = w.toList :: words [] := words_word hw nofun
      simpa [words] using hend
    | cons v ws =>
      have hblank : isBlank ' ' = true := by decide
      rw [List.map_cons, List.map_cons, List.intercalate_cons_cons, ← List.map_cons,
        List.append_assoc, words_word hw (by rintro c ⟨⟩; exact hblank),
        words_blanks (by simp [hblank]), ih hws]

/-! ## Small letters -/

def lowered (cs : List Char) : List Char := cs.map Char.toLower

/-- A capital letter stands 32 in front of its small one; any other character is its own. -/
theorem toLower_cases (c : Char) :
    c.toLower = c ∨ 65 ≤ c.toNat ∧ c.toNat ≤ 90 ∧ c.toLower.toNat = c.toNat + 32 := by
  by_cases hupper : c.val ≥ 'A'.val ∧ c.val ≤ 'Z'.val
  · have hA : 65 ≤ c.val.toNat := UInt32.le_iff_toNat_le.mp hupper.1
    have hZ : c.val.toNat ≤ 90 := UInt32.le_iff_toNat_le.mp hupper.2
    have hlower : c.toLower.val = c.val + 32 := by
      unfold Char.toLower
      rw [dif_pos hupper]
      rfl
    have hsum : c.toLower.val.toNat = c.val.toNat + 32 := by
      rw [hlower, UInt32.toNat_add]
      show (c.val.toNat + 32) % 2 ^ 32 = c.val.toNat + 32
      omega
    exact .inr ⟨hA, hZ, hsum⟩
  · exact .inl (dif_neg hupper)

theorem isBlank_toLower (c : Char) : isBlank c.toLower = isBlank c := by
  rcases toLower_cases c with e | ⟨hA, hZ, e⟩
  · rw [e]
  · rw [Bool.eq_iff_iff]
    simp only [isBlank, e, Bool.or_eq_true, Bool.and_eq_true, decide_eq_true_eq, beq_iff_eq]
    omega

/-- The words of a text in small letters are its words in small letters. -/
theorem words_lowered (cs : List Char) : words (lowered cs) = (words cs).map lowered := by
  induction cs with
  | nil => rfl
  | cons c cs ih =>
    have hnext : ((lowered cs).head?.map isBlank).getD true = (cs.head?.map isBlank).getD true := by
      cases cs with
      | nil => rfl
      | cons d cs => exact isBlank_toLower d
    show words (c.toLower :: lowered cs) = _
    rw [words, words, isBlank_toLower, hnext, ih]
    split
    · rfl
    · split
      · rfl
      · cases words cs <;> rfl

theorem foldCase_ofList (cs : List Char) :
    foldCase (String.ofList cs) = String.ofList (lowered cs) := by
  rw [foldCase, String.toList_ofList, lowered]

end Text

/-- Of a typed list only the words are read. -/
theorem TypedList.groups_joined {declaration : List Char} {ws : List String}
    (h : Text.words declaration = ws.map String.toList) :
    groups declaration = groups (Text.joined " " ws).toList := by
  have hwords : ∀ w ∈ ws, Text.Unbroken w.toList := by
    intro w hw
    have hmem : w.toList ∈ Text.words declaration := by
      rw [h]
      exact List.mem_map_of_mem hw
    exact Text.unbroken_of_mem_words hmem
  rw [groups, groups, h, Text.words_joined hwords]

end Pddl
