import Mathlib.Algebra.Module.BigOperators
import Mathlib.Data.Matrix.Block
import Mathlib.LinearAlgebra.Matrix.Notation

/-!
# The Hadamard matrices of Sylvester

`matrix k` is the block matrix of Sylvester's construction, and `transform k` multiplies a vector
over any abelian group by it.  `hadamard k` is the same on lists: it transforms the halves, and then
adds and subtracts them.

* `matrix_mul_self`: the square of the matrix is a multiple of the identity.
* `hadamard_ofFn`: the two transforms agree.
-/

namespace Sylvester

open Matrix

/-- The indices below `2 ^ (k + 1)` are those of the two halves. -/
def halves (k : ℕ) : Fin (2 ^ (k + 1)) ≃ Fin (2 ^ k) ⊕ Fin (2 ^ k) :=
  (finCongr (Nat.two_pow_succ k)).trans finSumFinEquiv.symm

/-- `[[H, H], [H, -H]]`, again and again. -/
def matrix : (k : ℕ) → Matrix (Fin (2 ^ k)) (Fin (2 ^ k)) ℤ
  | 0 => 1
  | k + 1 => (fromBlocks (matrix k) (matrix k) (matrix k) (-matrix k)).submatrix (halves k)
    (halves k)

theorem matrix_mul_self :
    ∀ k : ℕ, matrix k * matrix k = (2 ^ k : ℤ) • (1 : Matrix (Fin (2 ^ k)) (Fin (2 ^ k)) ℤ)
  | 0 => (Matrix.mul_one _).trans (one_smul ℤ _).symm
  | k + 1 => by
    have hsum :
        (2 ^ k : ℤ) • (1 : Matrix (Fin (2 ^ k)) (Fin (2 ^ k)) ℤ) + (2 ^ k : ℤ) • 1 =
        (2 ^ (k + 1) : ℤ) • 1 := by
      rw [← add_smul, pow_succ, mul_two]
    rw [matrix, submatrix_mul_equiv, fromBlocks_multiply, Matrix.mul_neg, Matrix.neg_mul,
      neg_mul_neg, matrix_mul_self k, add_neg_cancel, hsum]
    have hblocks :
        fromBlocks ((2 ^ (k + 1) : ℤ) • (1 : Matrix (Fin (2 ^ k)) (Fin (2 ^ k)) ℤ)) 0 0
        ((2 ^ (k + 1) : ℤ) • 1)
        = (2 ^ (k + 1) : ℤ) •
          (1 : Matrix (Fin (2 ^ k) ⊕ Fin (2 ^ k)) (Fin (2 ^ k) ⊕ Fin (2 ^ k)) ℤ) := by
      rw [← fromBlocks_one, fromBlocks_smul]
      simp only [smul_zero]
    rw [hblocks, submatrix_smul, Pi.smul_apply, Pi.smul_apply, submatrix_one_equiv]

variable {M : Type*} [AddCommGroup M]

/-- The product of the matrix and a vector. -/
def transform (k : ℕ) (v : Fin (2 ^ k) → M) : Fin (2 ^ k) → M := fun i => ∑ j, matrix k i j • v j

theorem transform_transform (k : ℕ) (v : Fin (2 ^ k) → M) :
    transform k (transform k v) = 2 ^ k • v := by
  funext i
  have hentry : ∀ j, ∑ l, matrix k i l * matrix k l j = if i = j then (2 ^ k : ℤ) else 0 := by
    intro j
    have h := congrFun (congrFun (matrix_mul_self k) i) j
    rw [Matrix.mul_apply, Matrix.smul_apply, Matrix.one_apply, smul_eq_mul, mul_ite, mul_one,
      mul_zero] at h
    exact h
  calc transform k (transform k v) i = ∑ l, ∑ j, matrix k i l • matrix k l j • v j :=
        Finset.sum_congr rfl fun l _ => Finset.smul_sum
    _ = ∑ j, (∑ l, matrix k i l * matrix k l j) • v j := by
        rw [Finset.sum_comm]
        refine Finset.sum_congr rfl fun j _ => ?_
        rw [Finset.sum_smul]
        exact Finset.sum_congr rfl fun l _ => (mul_smul ..).symm
    _ = (2 ^ k : ℤ) • v i := by
        simp only [hentry, ite_smul, zero_smul, Finset.sum_ite_eq, Finset.mem_univ, if_true]
    _ = (2 ^ k • v) i := by
        rw [Pi.smul_apply, ← natCast_zsmul]
        norm_cast

/-- The upper half of the transform is the sum of the transforms of the halves. -/
theorem transform_inl (k : ℕ) (v : Fin (2 ^ (k + 1)) → M) (i : Fin (2 ^ k)) :
    transform (k + 1) v ((halves k).symm (.inl i))
      = transform k (fun j => v ((halves k).symm (.inl j))) i +
        transform k (fun j => v ((halves k).symm (.inr j))) i := by
  rw [transform, ← (halves k).symm.sum_comp, Fintype.sum_sum_type]
  simp only [matrix, submatrix_apply, Equiv.apply_symm_apply, fromBlocks_apply₁₁,
    fromBlocks_apply₁₂]
  rfl

theorem transform_inr (k : ℕ) (v : Fin (2 ^ (k + 1)) → M) (i : Fin (2 ^ k)) :
    transform (k + 1) v ((halves k).symm (.inr i))
      = transform k (fun j => v ((halves k).symm (.inl j))) i -
        transform k (fun j => v ((halves k).symm (.inr j))) i := by
  rw [transform, ← (halves k).symm.sum_comp, Fintype.sum_sum_type]
  simp only [matrix, submatrix_apply, Equiv.apply_symm_apply, fromBlocks_apply₂₁,
    fromBlocks_apply₂₂, Matrix.neg_apply, neg_smul, Finset.sum_neg_distrib]
  exact (sub_eq_add_neg ..).symm

/-! ### Lists -/

/-- The sums of two halves, and then their differences. -/
def sumDiff (a b : List M) : List M := List.zipWith (· + ·) a b ++ List.zipWith (· - ·) a b

def hadamard : ℕ → List M → List M
  | 0, x => x
  | k + 1, x => sumDiff (hadamard k (x.take (2 ^ k))) (hadamard k (x.drop (2 ^ k)))

omit [AddCommGroup M] in
/-- A vector, half after half. -/
theorem ofFn_halves (k : ℕ) (v : Fin (2 ^ (k + 1)) → M) :
    List.ofFn v
      = List.ofFn (fun i => v ((halves k).symm (.inl i))) ++ List.ofFn fun i =>
        v ((halves k).symm (.inr i)) := by
  have hcast : ∀ (m : ℕ) (h : 2 ^ k + 2 ^ k = m) (w : Fin m → M),
      List.ofFn w = List.ofFn (fun i : Fin (2 ^ k) => w (Fin.cast h (Fin.castAdd _ i)))
        ++ List.ofFn fun i : Fin (2 ^ k) => w (Fin.cast h (Fin.natAdd _ i)) := by
    rintro m rfl w
    exact List.ofFn_add
  exact hcast _ (Nat.two_pow_succ k).symm v

omit [AddCommGroup M] in
theorem zipWith_ofFn {n : ℕ} (f : M → M → M) (v w : Fin n → M) :
    List.zipWith f (List.ofFn v) (List.ofFn w) = List.ofFn fun i => f (v i) (w i) := by
  refine List.ext_getElem (by simp) fun i h₁ h₂ => ?_
  simp

theorem hadamard_ofFn :
    ∀ (k : ℕ) (v : Fin (2 ^ k) → M), hadamard k (List.ofFn v) = List.ofFn (transform k v)
  | 0, v => by
    have h : transform 0 v = v := by
      funext i
      simp only [transform, matrix, Matrix.one_apply, ite_smul, one_smul, zero_smul,
        Finset.sum_ite_eq, Finset.mem_univ, if_true]
    rw [h, hadamard]
  | k + 1, v => by
    have hlen : ∀ w : Fin (2 ^ k) → M, (List.ofFn w).length = 2 ^ k := fun w => List.length_ofFn
    rw [hadamard, ofFn_halves k v, List.take_left' (hlen _), List.drop_left' (hlen _),
      hadamard_ofFn k, hadamard_ofFn k, ofFn_halves k (transform (k + 1) v), sumDiff, zipWith_ofFn,
      zipWith_ofFn]
    simp only [transform_inl, transform_inr]

end Sylvester
