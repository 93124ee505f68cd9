import Mathlib.Data.Int.Notation
import Mathlib.Tactic.Common

/-!
# Runs of consecutive numbers

A list whose entries carry the numbers from `a` on, up to `b`.
-/

namespace FreeToken

variable {α : Type*} (num : α → ℕ)

/-- The numbers of the entries are `a`, `a + 1`, … , `b - 1`. -/
def Consecutive : ℕ → List α → ℕ → Prop
  | a, [], b => a = b
  | a, x :: xs, b => num x = a ∧ Consecutive (a + 1) xs b

namespace Consecutive

variable {num} {a b c : ℕ} {x : α} {xs ys : List α}

theorem nil (a : ℕ) : Consecutive num a [] a := rfl

theorem le (h : Consecutive num a xs b) : a ≤ b := by
  induction xs generalizing a with
  | nil => exact Nat.le_of_eq h
  | cons x xs ih => exact Nat.le_of_succ_le (ih h.2)

theorem of_mem (h : Consecutive num a xs b) (hx : x ∈ xs) : a ≤ num x ∧ num x < b := by
  induction xs generalizing a with
  | nil => cases hx
  | cons y xs ih =>
    have hle := h.2.le
    rcases List.mem_cons.mp hx with rfl | hmem
    · exact ⟨Nat.le_of_eq h.1.symm, by rw [h.1]; omega⟩
    · have hrest := ih h.2 hmem
      exact ⟨by omega, hrest.2⟩

theorem append (h : Consecutive num a xs b) (h' : Consecutive num b ys c) :
    Consecutive num a (xs ++ ys) c := by
  induction xs generalizing a with
  | nil =>
    cases h
    exact h'
  | cons x xs ih => exact ⟨h.1, ih h.2⟩

theorem snoc (h : Consecutive num a xs b) (hx : num x = b) :
    Consecutive num a (xs ++ [x]) (b + 1) :=
  h.append ⟨hx, rfl⟩

/-- The last entries of a run. -/
theorem drop (h : Consecutive num a xs b) (n : ℕ) :
    Consecutive num (min (a + n) b) (xs.drop n) b := by
  induction n generalizing a xs with
  | zero =>
    rw [Nat.add_zero, Nat.min_eq_left h.le]
    exact h
  | succ n ih =>
    cases xs with
    | nil =>
      rw [Nat.min_eq_right (by rw [← show a = b from h]; omega)]
      exact nil b
    | cons x xs =>
      rw [← Nat.add_assoc, Nat.add_right_comm]
      exact ih h.2

theorem filter_le (h : Consecutive num a xs b) (k : ℤ) :
    ∃ o, Consecutive num o (xs.filter fun x => k ≤ num x) b ∧ a ≤ o ∧ (k ≤ o ∨ o = b) := by
  induction xs generalizing a with
  | nil =>
    exact ⟨a, h, Nat.le_refl a, .inr h⟩
  | cons x xs ih =>
    obtain ⟨o, ho, hle, hk⟩ := ih h.2
    by_cases hx : k ≤ num x
    · -- from here on all entries stay
      have hkeep : ∀ y ∈ xs, decide (k ≤ num y) = true := fun y hy => by
        have hmem := h.2.of_mem hy
        rw [h.1] at hx
        exact decide_eq_true (by omega)
      refine ⟨a, ?_, Nat.le_refl a, .inl (h.1 ▸ hx)⟩
      rw [List.filter_cons, if_pos (decide_eq_true hx), List.filter_eq_self.mpr hkeep]
      exact h
    · refine ⟨o, ?_, by omega, hk⟩
      rw [List.filter_cons, if_neg fun hx' => hx (of_decide_eq_true hx')]
      exact ho

end Consecutive

end FreeToken
