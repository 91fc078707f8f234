/-
This file gives the rules for comparisons that test one key after another.
-/

import Mathlib.Data.List.Lex
import Mathlib.Order.Defs.Unbundled
import Mathlib.Tactic

namespace Lexicographic

variable {Value Key : Type} [LinearOrder Key]

/-- This comparison decides by one key and falls back to the rest on a tie. -/
def byKey (key : Value → Key) (rest : Value → Value → Bool)
    (first second : Value) : Bool :=
  if key first < key second then true
  else if key second < key first then false
  else rest first second

/-- This loop decides by the first entry that differs. -/
def byEntries : List Key → List Key → Bool → Bool
  | left :: lefts, right :: rights, rest =>
      if left < right then true else if right < left then false else byEntries lefts rights rest
  | _, _, rest => rest

/-- Two values tie exactly when their keys agree and the rest ties. -/
theorem byKey_tie_iff (key : Value → Key) (rest : Value → Value → Bool) (first second : Value) :
    (byKey key rest first second = false ∧ byKey key rest second first = false) ↔
      key first = key second ∧ rest first second = false ∧ rest second first = false := by
  unfold byKey
  rcases lt_trichotomy (key first) (key second) with below | same | above
  · simp [below, below.ne, below.not_gt]
  · simp [same]
  · simp [above, above.ne', above.not_gt]

/-- One more key keeps a strict weak order. -/
theorem byKey_strictWeak (key : Value → Key) {rest : Value → Value → Bool}
    (weak : IsStrictWeakOrder Value fun first second => rest first second = true) :
    IsStrictWeakOrder Value fun first second => byKey key rest first second = true := by
  have below_iff (first second : Value) : byKey key rest first second = true ↔
      key first < key second ∨ key first = key second ∧ rest first second = true := by
    unfold byKey
    rcases lt_trichotomy (key first) (key second) with below | same | above
    · simp [below]
    · simp [same]
    · simp [above, above.ne', above.not_gt]
  refine { irrefl := ?_, trans := ?_, incomp_trans := ?_ }
  · intro value
    rw [below_iff]
    rintro (below | ⟨_, again⟩)
    · exact below.false
    · exact weak.irrefl value again
  · intro first second third
    rw [below_iff, below_iff, below_iff]
    rintro (below | ⟨same, less⟩) (next | ⟨again, more⟩)
    · exact Or.inl (below.trans next)
    · exact Or.inl (again ▸ below)
    · exact Or.inl (same ▸ next)
    · exact Or.inr ⟨same.trans again, weak.trans _ _ _ less more⟩
  · intro first second third
    simp only [Bool.not_eq_true]
    rw [byKey_tie_iff, byKey_tie_iff, byKey_tie_iff]
    rintro ⟨same, ties⟩ ⟨again, more⟩
    simp only [← Bool.not_eq_true] at ties more ⊢
    exact ⟨same.trans again, weak.incomp_trans _ _ _ ties more⟩

/-- On lists of one length the loop is the lexicographic order of the lists. -/
theorem byEntries_eq {lefts rights : List Key} (same : lefts.length = rights.length) (rest : Bool) :
    byEntries lefts rights rest = byKey (fun entries => entries) (fun _ _ => rest) lefts rights := by
  induction lefts generalizing rights with
  | nil =>
      obtain rfl : rights = [] := List.length_eq_zero_iff.mp same.symm
      simp [byEntries, byKey]
  | cons left lefts ih =>
      cases rights with
      | nil => cases same
      | cons right rights =>
          rw [byEntries, ih (Nat.succ.inj same)]
          unfold byKey
          rcases lt_trichotomy left right with below | tie | above
          · simp [List.cons_lt_cons_iff, below]
          · subst tie
            simp
          · simp [List.cons_lt_cons_iff, above, above.ne', above.not_gt]

/-- A size test followed by the loop decides by the size and then by the list. -/
theorem byKey_length_byEntries (entries : Value → List Key) (rest : Value → Value → Bool) :
    byKey (fun value => (entries value).length)
        (fun first second => byEntries (entries first) (entries second) (rest first second)) =
      byKey (fun value => (entries value).length) (byKey entries rest) := by
  funext first second
  rcases lt_trichotomy (entries first).length (entries second).length with below | same | above
  · simp only [byKey, if_pos below]
  · simp only [byKey, same, lt_irrefl, if_false]
    exact byEntries_eq same _
  · simp only [byKey, if_neg above.not_gt, if_pos above]

end Lexicographic
