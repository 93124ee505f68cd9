import Mathlib.Algebra.BigOperators.Intervals
import Mathlib.Algebra.BigOperators.Ring.Finset
import Mathlib.Tactic.Ring

/-!
# Inverses of unit lower triangular matrices

A matrix is a function of its row and its column. Of `A` only the entries below the diagonal count.

* `Inverts n A T`: `T` is the inverse of `1 + A` on the first `n` rows and columns.
* `Inverts.apply`: a product with `T` is the solution of the triangular system.
* `solved_rounds`: forward substitution, a row a round.
-/

namespace UnitLower

open Finset

variable {R : Type*} [CommRing R] {n : ℕ} {A T N X : ℕ → ℕ → R}

/-- All entries on the diagonal and above it are zero. -/
def StrictLower (X : ℕ → ℕ → R) : Prop := ∀ i j, i ≤ j → X i j = 0

/-- The first `n` rows of the inverse of `1 + A`. -/
def Inverts (n : ℕ) (A T : ℕ → ℕ → R) : Prop :=
  ∀ i < n, ∀ j < n, T i j = (if i = j then 1 else 0) - ∑ l ∈ range i, A i l * T l j

/-! ### Solving -/

/-- The triangular system has one solution. -/
theorem solution_unique {b x y : ℕ → R} (hx : ∀ i < n, x i = b i - ∑ l ∈ range i, A i l * x l)
    (hy : ∀ i < n, y i = b i - ∑ l ∈ range i, A i l * y l) : ∀ i < n, x i = y i := by
  intro i
  induction i using Nat.strong_induction_on with
  | _ i ih =>
    intro hi
    rw [hx i hi, hy i hi]
    congr 1
    refine sum_congr rfl fun l hl => ?_
    rw [ih l (mem_range.mp hl) ((mem_range.mp hl).trans hi)]

theorem Inverts.apply (h : Inverts n A T) (b : ℕ → R) {i : ℕ} (hi : i < n) :
    ∑ j ∈ range n, T i j * b j = b i - ∑ l ∈ range i, A i l * ∑ j ∈ range n, T l j * b j := by
  have hrow : ∀ j ∈ range n, T i j * b j =
      (if i = j then b j else 0) - ∑ l ∈ range i, A i l * (T l j * b j) := fun j hj => by
    rw [h i hi j (mem_range.mp hj), sub_mul, sum_mul, ite_mul, one_mul, zero_mul]
    simp only [mul_assoc]
  rw [sum_congr rfl hrow, sum_sub_distrib, sum_ite_eq, if_pos (mem_range.mpr hi), sum_comm]
  simp only [mul_sum]

theorem Inverts.eq_of_solves (h : Inverts n A T) {b x : ℕ → R}
    (hx : ∀ i < n, x i = b i - ∑ l ∈ range i, A i l * x l) {i : ℕ} (hi : i < n) :
    x i = ∑ j ∈ range n, T i j * b j :=
  solution_unique hx (fun _ hi => h.apply b hi) i hi

theorem Inverts.congr {A' : ℕ → ℕ → R} (h : Inverts n A T) (hA : ∀ i < n, ∀ l < i, A i l = A' i l) :
    Inverts n A' T := by
  intro i hi j hj
  rw [h i hi j hj]
  congr 1
  exact sum_congr rfl fun l hl => by rw [hA i hi l (mem_range.mp hl)]

/-! ### Forward substitution -/

/-- A row that the substitution is through with. -/
def Solved (N X : ℕ → ℕ → R) (i : ℕ) : Prop := ∀ j, X i j = N i j + ∑ l ∈ range i, N i l * X l j

/-- A round of the substitution on the first `n` rows: it works on a row of its own, out of the rows
before it. -/
structure IsRound (n : ℕ) (N : ℕ → ℕ → R) (f : (ℕ → ℕ → R) → ℕ → ℕ → ℕ → R) : Prop where
  other : ∀ X i r j, r ≠ i → f X i r j = X r j
  row : ∀ X i j, i < n → StrictLower X → X i = N i → f X i i j = N i j + ∑ l ∈ range i, N i l *
    X l j

variable {f : (ℕ → ℕ → R) → ℕ → ℕ → ℕ → R}

/-- What a round leaves: the row is solved and the rest is as before. -/
theorem IsRound.strictLower (hf : IsRound n N f) (hN : StrictLower N) (hX : StrictLower X) {i : ℕ}
    (hi : i < n) (hrow : X i = N i) : StrictLower (f X i) := by
  intro r j hrj
  by_cases hr : r = i
  · obtain rfl := hr
    rw [hf.row X r j hi hX hrow, hN r j hrj, zero_add]
    refine sum_eq_zero fun l hl => ?_
    rw [hX l j ((mem_range.mp hl).le.trans hrj), mul_zero]
  · rw [hf.other X i r j hr]
    exact hX r j hrj

theorem IsRound.solved (hf : IsRound n N f) (hX : StrictLower X) {i : ℕ} (hi : i < n)
    (hrow : X i = N i) :
    Solved N (f X i) i := by
  intro j
  rw [hf.row X i j hi hX hrow]
  congr 1
  refine sum_congr rfl fun l hl => ?_
  rw [hf.other X i l j (mem_range.mp hl).ne]

theorem IsRound.solved_other (hf : IsRound n N f) {i r : ℕ} (hr : r < i) (h : Solved N X r) :
    Solved N (f X i) r := by
  intro j
  rw [hf.other X i r j hr.ne, h j]
  congr 1
  refine sum_congr rfl fun l hl => ?_
  rw [hf.other X i l j ((mem_range.mp hl).trans hr).ne]

theorem solved_start (hN : StrictLower N) {r : ℕ} (hr : r < 2) : Solved N N r := by
  intro j
  have hzero : ∑ l ∈ range r, N r l * N l j = 0 := by
    refine sum_eq_zero fun l hl => ?_
    have hl0 : l = 0 := by
      have := mem_range.mp hl
      omega
    rw [hl0, hN 0 j (Nat.zero_le j), mul_zero]
  rw [hzero, add_zero]

theorem solved_rounds (hf : IsRound n N f) (hN : StrictLower N) {a : ℕ} (ha : a ≤ 2) (k : ℕ)
    (hk : ∀ i, a ≤ i → i < a + k → i < n) :
    StrictLower ((List.range' a k).foldl f N) ∧
      (∀ r < a + k, Solved N ((List.range' a k).foldl f N) r) ∧
      ∀ r, a + k ≤ r → (List.range' a k).foldl f N r = N r := by
  induction k with
  | zero => exact ⟨hN, fun r hr => solved_start hN (by omega), fun _ _ => rfl⟩
  | succ k ih =>
    obtain ⟨hlow, hsolved, hrest⟩ := ih fun i hai hi => hk i hai (by omega)
    have hrow := hrest (a + k) le_rfl
    have hlt : a + k < n := hk (a + k) (Nat.le_add_right a k) (by omega)
    rw [List.range'_concat, List.foldl_append, List.foldl_cons, List.foldl_nil, Nat.one_mul]
    refine ⟨hf.strictLower hN hlow hlt hrow, fun r hr => ?_, fun r hr => ?_⟩
    · by_cases hlast : r = a + k
      · obtain rfl := hlast
        exact hf.solved hlow hlt hrow
      · exact hf.solved_other (by omega) (hsolved r (by omega))
    · rw [← hrest r (by omega)]
      funext j
      exact hf.other _ (a + k) r j (by omega)

theorem inverts_of_solved (hN : StrictLower N) (h : ∀ r < n, Solved N X r) :
    Inverts n (fun i l => -N i l) fun i j => X i j + if i = j then 1 else 0 := by
  intro i hi j _
  have hsplit : ∀ l ∈ range i, -N i l * (X l j + if l = j then 1 else 0) =
      -(N i l * X l j) - if l = j then N i l else 0 := fun l _ => by
    split_ifs <;> ring
  show X i j + (if i = j then 1 else 0) =
    (if i = j then 1 else 0) - ∑ l ∈ range i, -N i l * (X l j + if l = j then 1 else 0)
  rw [h i hi j, sum_congr rfl hsplit, sum_sub_distrib, sum_neg_distrib, sum_ite_eq']
  by_cases hj : j < i
  · rw [if_pos (mem_range.mpr hj)]
    ring
  · rw [if_neg (mt mem_range.mp hj), hN i j (by omega)]
    ring

end UnitLower
