/-
  Pddl.Text.Name — names compared without regard to case.

  Planning languages fold the case of names. Only the letters A to Z have two cases here: a
  letter outside ASCII differs from its capital.
-/

namespace Pddl.Text

/-- The name with the letters A to Z replaced by small ones. -/
def foldCase (name : String) : String := String.ofList (name.toList.map Char.toLower)

/-- Whether two names differ at most in the case of ASCII letters. -/
def sameName (a b : String) : Bool := foldCase a == foldCase b

theorem sameName_iff {a b : String} : sameName a b = true ↔ foldCase a = foldCase b := by
  simp [sameName]

theorem sameName_comm (a b : String) : sameName a b = sameName b a := by
  unfold sameName
  exact BEq.comm

theorem sameName_trans (a b c : String) (hab : sameName a b = true)
    (hbc : sameName b c = true) : sameName a c = true :=
  sameName_iff.mpr ((sameName_iff.mp hab).trans (sameName_iff.mp hbc))

end Pddl.Text
