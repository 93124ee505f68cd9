import Mathlib.Order.Bounds.Basic
import Mathlib.Tactic.Common

/-!
# The last number that fits

A test holds of the small numbers and fails for the large ones.  An upper bound is found by
doubling, and the last number that passes the test by bisection.  Both loops are fuelled.

* `growHi_spec`, `bisect_spec`: what the loops return, and how much fuel they need.
* `isGreatest_of_step`: where the test is downward closed, that is the last number that passes it.
-/

namespace FreeToken

variable {fits : ℕ → Bool} {lo hi : ℕ}

def growHi (fits : ℕ → Bool) : ℕ → ℕ → Option ℕ
  | 0, _ => none
  | fuel + 1, hi => if fits hi then growHi fits fuel (hi * 2) else some hi

/-- Bisection: `lo` passes the test and `hi` fails. -/
def bisect (fits : ℕ → Bool) : ℕ → ℕ → ℕ → Option ℕ
  | 0, _, _ => none
  | fuel + 1, lo, hi =>
    if lo + 1 < hi then
      let mid := (lo + hi) / 2
      if fits mid then bisect fits fuel mid hi else bisect fits fuel lo mid
    else some lo

/-- **Doubling ends**, where the test fails from some number on. -/
theorem growHi_spec {bound : ℕ} (hbound : ∀ n, bound ≤ n → fits n = false) (hpos : 0 < hi) :
    ∃ n, hi ≤ n ∧ fits n = false ∧ ∀ fuel, bound - hi < fuel → growHi fits fuel hi = some n := by
  -- induction on what is left to the bound
  obtain ⟨left, hleft⟩ : ∃ left, bound - hi ≤ left := ⟨_, le_refl _⟩
  induction left generalizing hi with
  | zero =>
    have hfalse := hbound hi (by omega)
    refine ⟨hi, le_refl _, hfalse, fun fuel hfuel => ?_⟩
    obtain ⟨fuel, rfl⟩ := Nat.exists_eq_add_of_lt hfuel
    rw [growHi, hfalse, if_neg Bool.false_ne_true]
  | succ left ih =>
    cases hfits : fits hi with
    | false =>
      refine ⟨hi, le_refl _, hfits, fun fuel hfuel => ?_⟩
      obtain ⟨fuel, rfl⟩ := Nat.exists_eq_add_of_lt hfuel
      rw [growHi, hfits, if_neg Bool.false_ne_true]
    | true =>
      obtain ⟨n, hle, hn, hgrow⟩ := @ih (hi * 2) (by omega) (by omega)
      refine ⟨n, by omega, hn, fun fuel hfuel => ?_⟩
      obtain ⟨fuel, rfl⟩ := Nat.exists_eq_add_of_lt hfuel
      rw [growHi, hfits, if_pos rfl]
      refine hgrow _ ?_
      have hlt : hi < bound := by
        by_contra hnot
        rw [hbound hi (not_lt.mp hnot)] at hfits
        exact Bool.false_ne_true hfits
      omega

/-- **Bisection** ends where the test passes and fails for the next number. -/
theorem bisect_spec (hlo : fits lo = true) (hhi : fits hi = false) (hlt : lo < hi) :
    ∃ n, lo ≤ n ∧ fits n = true ∧ fits (n + 1) = false ∧ ∀ fuel, hi - lo ≤ fuel →
      bisect fits fuel lo hi = some n := by
  -- induction on the length of the bracket
  obtain ⟨len, hlen⟩ : ∃ len, hi - lo ≤ len := ⟨_, le_refl _⟩
  induction len generalizing lo hi with
  | zero => omega
  | succ len ih =>
    by_cases hmore : lo + 1 < hi
    · have hmid : lo < (lo + hi) / 2 ∧ (lo + hi) / 2 < hi := by omega
      cases hfits : fits ((lo + hi) / 2) with
      | true =>
        obtain ⟨n, hle, hn, hnext, hsearch⟩ := ih hfits hhi hmid.2 (by omega)
        refine ⟨n, hmid.1.le.trans hle, hn, hnext, fun fuel hfuel => ?_⟩
        obtain ⟨fuel, rfl⟩ : ∃ k, fuel = k + 1 := Nat.exists_eq_succ_of_ne_zero (by omega)
        rw [bisect, if_pos hmore]
        dsimp only
        rw [hfits, if_pos rfl]
        exact hsearch fuel (by omega)
      | false =>
        obtain ⟨n, hle, hn, hnext, hsearch⟩ := ih hlo hfits hmid.1 (by omega)
        refine ⟨n, hle, hn, hnext, fun fuel hfuel => ?_⟩
        obtain ⟨fuel, rfl⟩ : ∃ k, fuel = k + 1 := Nat.exists_eq_succ_of_ne_zero (by omega)
        rw [bisect, if_pos hmore]
        dsimp only
        rw [hfits, if_neg Bool.false_ne_true]
        exact hsearch fuel (by omega)
    · obtain rfl : hi = lo + 1 := by omega
      refine ⟨lo, le_refl _, hlo, hhi, fun fuel hfuel => ?_⟩
      obtain ⟨fuel, rfl⟩ : ∃ k, fuel = k + 1 := Nat.exists_eq_succ_of_ne_zero (by omega)
      rw [bisect, if_neg hmore]

/-- Where the test is downward closed, the place where it fails is behind the last number. -/
theorem isGreatest_of_step {n : ℕ} (hmono : ∀ m k, m ≤ k → fits k = true → fits m = true)
    (hn : fits n = true) (hnext : fits (n + 1) = false) : IsGreatest {m | fits m = true} n := by
  refine ⟨hn, fun m hm => ?_⟩
  by_contra hlt
  have hsucc := hmono (n + 1) m (not_le.mp hlt) hm
  rw [hnext] at hsucc
  exact Bool.false_ne_true hsucc

end FreeToken
