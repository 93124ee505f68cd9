import Mathlib.Algebra.BigOperators.Intervals
import Mathlib.Algebra.Order.Group.Int
import Mathlib.Data.Int.ConditionallyCompleteOrder
import Mathlib.Tactic.Abel

/-!
# The last place where a falling function reaches a target

The search knows a bracket, and what the function is at its end.  A round cuts the bracket into bins
of one width, and is told by how much the function falls over each bin.

* `lastWhere`: the last index of some.
* `Bracket.narrow`: a round finds the bin where the target is crossed.
* `Bracket.last`: the bracket of width 1.
* `lastWhere_eq_neg_one`: the function does not reach the target.
-/

namespace FreeToken

variable {α : Type*}

/-- The last index for which it is so, and -1 where there is none. -/
def lastWhere (n : ℕ) (p : ℕ → Bool) : ℤ :=
  (List.range n).foldl (fun j i => max j (if p i then (i : ℤ) else -1)) (-1)

section LastWhere

variable {n j : ℕ} {p : ℕ → Bool}

theorem lastWhere_succ :
    lastWhere (n + 1) p = max (lastWhere n p) (if p n then (n : ℤ) else -1) := by
  unfold lastWhere
  rw [List.range_succ, List.foldl_append]
  rfl

theorem lastWhere_lt : lastWhere n p < n ∧ -1 ≤ lastWhere n p := by
  induction n with
  | zero => exact ⟨Int.negSucc_lt_zero 0, Int.le_refl (-1)⟩
  | succ n ih =>
    rw [lastWhere_succ]
    split <;> omega

theorem le_lastWhere (hj : j < n) (hp : p j = true) : (j : ℤ) ≤ lastWhere n p := by
  induction n with
  | zero => exact absurd hj (Nat.not_lt_zero j)
  | succ n ih =>
    rw [lastWhere_succ]
    by_cases heq : j = n
    · rw [← heq, if_pos hp]
      exact Int.le_max_right _ _
    · exact (ih (by omega)).trans (Int.le_max_left _ _)

theorem lastWhere_eq_neg_one (h : ∀ i < n, p i = false) : lastWhere n p = -1 := by
  induction n with
  | zero => rfl
  | succ n ih =>
    rw [lastWhere_succ, ih fun i hi => h i (Nat.lt_succ_of_lt hi), h n (Nat.lt_succ_self n)]
    rfl

theorem lastWhere_eq (hj : j < n) (hp : p j = true) (hlast : ∀ i < n, j < i → p i = false) :
    lastWhere n p = j := by
  induction n with
  | zero => omega
  | succ n ih =>
    rw [lastWhere_succ]
    by_cases heq : j = n
    · have hlt := lastWhere_lt (n := n) (p := p)
      subst heq
      rw [if_pos hp]
      omega
    · rw [ih (by omega) fun i hi => hlast i (Nat.lt_succ_of_lt hi), hlast n (Nat.lt_succ_self n)
        (by omega), if_neg Bool.false_ne_true]
      omega

end LastWhere

section Search

variable [AddCommGroup α] {W : ℤ → α} {target above : α} {lo s : ℤ} {n bins j : ℕ} {fall : ℕ → α}

/-- What the function is at the start of a bin, with the falls summed up from the other side. -/
def tailSum (above : α) (fall : ℕ → α) (bins j : ℕ) : α :=
  above + ∑ i ∈ Finset.range bins, fall i - ∑ i ∈ Finset.range (j + 1), fall i + fall j

/-- `fall` tells by how much the function falls over each of the first `n` bins. -/
def Falls (W : ℤ → α) (lo s : ℤ) (n : ℕ) (fall : ℕ → α) (bins : ℕ) : Prop :=
  ∀ j < bins, fall j = if j < n then W (lo + j * s) - W (lo + (j + 1) * s) else 0

theorem Falls.sum_range (h : Falls W lo s n fall bins) (hn : n ≤ bins) (hj : j ≤ n) :
    ∑ i ∈ Finset.range j, fall i = W lo - W (lo + j * s) := by
  induction j with
  | zero => simp
  | succ j ih =>
    rw [Finset.sum_range_succ, ih (by omega), h j (by omega), if_pos (by omega), Nat.cast_add,
      Nat.cast_one]
    abel

theorem Falls.sum_all (h : Falls W lo s n fall bins) (hn : n ≤ bins) :
    ∑ i ∈ Finset.range bins, fall i = W lo - W (lo + n * s) := by
  rw [← h.sum_range hn (Nat.le_refl n), ← Finset.sum_range_add_sum_Ico fall hn]
  refine (congrArg _ (Finset.sum_eq_zero fun i hi => ?_)).trans (add_zero _)
  rw [Finset.mem_Ico] at hi
  rw [h i hi.2, if_neg (by omega)]

/-- The sum from the other side, for the bins that there are. -/
theorem Falls.tailSum_eq (h : Falls W lo s n fall bins) (hn : n ≤ bins) (hj : j < n) :
    tailSum above fall bins j = above + W (lo + j * s) - W (lo + n * s) := by
  unfold tailSum
  rw [h.sum_all hn, h.sum_range hn (Nat.succ_le_of_lt hj), h j (by omega), if_pos hj, Nat.cast_succ]
  abel

theorem Falls.tailSum_eq_above (h : Falls W lo s n fall bins) (hn : n ≤ bins) (hj : n ≤ j)
    (hbins : j < bins) :
    tailSum above fall bins j = above := by
  have hsame : ∑ i ∈ Finset.range (j + 1), fall i = W lo - W (lo + n * s) := by
    rw [← h.sum_range hn (Nat.le_refl n), ← Finset.sum_range_add_sum_Ico fall
      (show n ≤ j + 1 by omega)]
    refine (congrArg _ (Finset.sum_eq_zero fun i hi => ?_)).trans (add_zero _)
    rw [Finset.mem_Ico] at hi
    rw [h i (by omega), if_neg (by omega)]
  unfold tailSum
  rw [h.sum_all hn, hsame, h j hbins, if_neg (by omega)]
  abel

variable [LinearOrder α]

/-- The function reaches the target at the start of the bracket, and does not at its end, where it
is `above`. -/
structure Bracket (W : ℤ → α) (target : α) (lo width : ℤ) (above : α) : Prop where
  reach : target ≤ W lo
  above_eq : above = W (lo + width)
  above_lt : above < target

/-- **A round of the search.** -/
theorem Bracket.narrow (h : Bracket W target lo (n * s) above) (hfall : Falls W lo s n fall bins)
    (hn : n ≤ bins) :
    ∃ j < n, lastWhere bins (fun j => target ≤ tailSum above fall bins j) = j ∧
      Bracket W target (lo + j * s) s (above + ∑ i ∈ Finset.range bins, fall i - ∑ i ∈
        Finset.range (j + 1), fall i) := by
  have htail : ∀ j < n, tailSum above fall bins j = W (lo + j * s) := fun j hj => by
    rw [hfall.tailSum_eq hn hj, h.above_eq]
    abel
  -- the first bin reaches the target
  have hpos : 0 < n := by
    by_contra hzero
    have habove := h.above_eq
    rw [show n = 0 by omega, Nat.cast_zero, Int.zero_mul, Int.add_zero] at habove
    exact absurd h.reach (not_le.mpr (habove ▸ h.above_lt))
  have hfirst : target ≤ W (lo + (0 : ℕ) * s) := by
    rw [Nat.cast_zero, Int.zero_mul, Int.add_zero]
    exact h.reach
  obtain ⟨j, hj, hreach, hlast⟩ : ∃ j < n, target ≤ W (lo + j * s) ∧ ∀ i < n, j < i →
    W (lo + i * s) < target := by
    refine ⟨Nat.findGreatest (fun j : ℕ => target ≤ W (lo + j * s)) (n - 1), ?_, ?_, fun i hi hlt =>
      ?_⟩
    · have hle := Nat.findGreatest_le (P := fun j : ℕ => target ≤ W (lo + j * s)) (n - 1)
      omega
    · exact Nat.findGreatest_spec (P := fun j : ℕ => target ≤ W (lo + j * s)) (Nat.zero_le _) hfirst
    · exact not_le.mp (Nat.findGreatest_is_greatest hlt (by omega))
  have hsum :
      above + ∑ i ∈ Finset.range bins, fall i - ∑ i ∈ Finset.range (j + 1), fall i =
      W (lo + j * s + s) := by
    have heq : lo + ((j + 1 : ℕ) : ℤ) * s = lo + j * s + s := by
      rw [Nat.cast_succ, Int.add_mul, Int.one_mul, Int.add_assoc]
    rw [hfall.sum_all hn, hfall.sum_range hn (Nat.succ_le_of_lt hj), h.above_eq, ← heq]
    abel
  refine ⟨j, hj, lastWhere_eq (by omega) ?_ fun i hi hlt => ?_, ⟨hreach, hsum, ?_⟩⟩
  · rw [htail j hj]
    exact decide_eq_true hreach
  · refine decide_eq_false (not_le.mpr ?_)
    by_cases hin : i < n
    · rw [htail i hin]
      exact hlast i hin hlt
    · rw [hfall.tailSum_eq_above hn (by omega) hi]
      exact h.above_lt
  · have heq : lo + j * s + s = lo + ((j + 1 : ℕ) : ℤ) * s := by
      rw [Nat.cast_succ, Int.add_mul, Int.one_mul, Int.add_assoc]
    rw [hsum, heq]
    by_cases hin : j + 1 < n
    · exact hlast (j + 1) hin (Nat.lt_succ_self j)
    · rw [show j + 1 = n by omega, ← h.above_eq]
      exact h.above_lt

omit [AddCommGroup α] in
/-- **The bracket of width 1** is the last place. -/
theorem Bracket.last (h : Bracket W target lo 1 above) (hW : Antitone W) (v : ℤ) :
    target ≤ W v ↔ v ≤ lo := by
  refine ⟨fun hreach => ?_, fun hle => h.reach.trans (hW hle)⟩
  by_contra hlt
  have hle : W v ≤ W (lo + 1) := hW (by omega)
  exact absurd (hreach.trans hle) (not_le.mpr (h.above_eq ▸ h.above_lt))

variable [IsOrderedAddMonoid α]

/-- **The function does not reach the target**: no round finds a bin. -/
theorem Falls.lastWhere_eq_neg_one (h : Falls W lo s n fall bins) (hW : Antitone W) (hs : 0 ≤ s)
    (hn : n ≤ bins) (hlow : W lo < target) (habove : above ≤ W (lo + n * s)) :
    lastWhere bins (fun j => target ≤ tailSum above fall bins j) = -1 := by
  refine FreeToken.lastWhere_eq_neg_one fun j hj =>
    decide_eq_false (not_le.mpr (lt_of_le_of_lt ?_ hlow))
  have hle : ∀ j : ℕ, W (lo + j * s) ≤ W lo := fun j =>
    hW (Int.le_add_of_nonneg_right (Int.mul_nonneg (Int.natCast_nonneg j) hs))
  by_cases hin : j < n
  · rw [h.tailSum_eq hn hin, add_sub_right_comm]
    exact (add_le_of_nonpos_left (sub_nonpos.mpr habove)).trans (hle j)
  · rw [h.tailSum_eq_above hn (by omega) hj]
    exact habove.trans (hle n)

end Search

end FreeToken
