import Mathlib.Data.Nat.Bitwise
import Mathlib.Data.List.Basic

/-!
# Sums of numbers with disjoint bits

* `testBit_add_of_disjoint`: numbers without a common bit are added without a carry.
* `testBit_sumOf`: so is a list of them.
-/

namespace FreeToken

def DisjointBits (a b : ℕ) : Prop := ∀ k, a.testBit k = true → b.testBit k = true → False

theorem DisjointBits.and_eq_zero {a b : ℕ} (h : DisjointBits a b) : a &&& b = 0 := by
  apply Nat.eq_of_testBit_eq
  intro k
  rw [Nat.testBit_and, Nat.zero_testBit, Bool.and_eq_false_iff]
  by_contra hne
  rw [not_or, Bool.not_eq_false, Bool.not_eq_false] at hne
  exact h k hne.1 hne.2

theorem DisjointBits.mod_two {a b : ℕ} (h : DisjointBits a b) : ¬(a % 2 = 1 ∧ b % 2 = 1) := by
  rintro ⟨ha, hb⟩
  exact h 0 (by rw [Nat.testBit_zero, ha, decide_eq_true rfl])
    (by rw [Nat.testBit_zero, hb, decide_eq_true rfl])

theorem testBit_add_of_disjoint {a b : ℕ} (h : DisjointBits a b) (k : ℕ) :
    (a + b).testBit k = (a.testBit k || b.testBit k) := by
  induction k generalizing a b with
  | zero =>
    have hlow := h.mod_two
    rw [Nat.testBit_zero, Nat.testBit_zero, Nat.testBit_zero, ← Bool.decide_or]
    apply decide_eq_decide.mpr
    omega
  | succ k ih =>
    have hhalf : (a + b) / 2 = a / 2 + b / 2 := by
      have hlow := h.mod_two
      omega
    have hdisjoint : DisjointBits (a / 2) (b / 2) := by
      intro j ha hb
      exact h (j + 1) (by rwa [Nat.testBit_succ]) (by rwa [Nat.testBit_succ])
    rw [Nat.testBit_succ, Nat.testBit_succ, Nat.testBit_succ, hhalf]
    exact ih hdisjoint

def sumOf : List ℕ → ℕ
  | [] => 0
  | a :: l => a + sumOf l

variable {ι : Type*} {l l' : List ι} {f g : ι → ℕ}

theorem sumOf_append (l l' : List ℕ) : sumOf (l ++ l') = sumOf l + sumOf l' := by
  induction l with
  | nil => exact (Nat.zero_add _).symm
  | cons a l ih =>
    show a + sumOf (l ++ l') = a + sumOf l + sumOf l'
    rw [ih, Nat.add_assoc]

theorem sumOf_perm {l l' : List ℕ} (h : l.Perm l') : sumOf l = sumOf l' := by
  induction h with
  | nil => rfl
  | cons a _ ih => exact congrArg (a + ·) ih
  | swap a b l =>
    show b + (a + sumOf l) = a + (b + sumOf l)
    omega
  | trans _ _ ih ih' => exact ih.trans ih'

theorem sumOf_map_add (l : List ι) :
    sumOf (l.map fun i => f i + g i) = sumOf (l.map f) + sumOf (l.map g) := by
  induction l with
  | nil => rfl
  | cons i l ih =>
    show f i + g i + sumOf (l.map fun i => f i + g i) = f i + sumOf (l.map f) +
      (g i + sumOf (l.map g))
    rw [ih]
    omega

theorem testBit_sumOf (h : l.Pairwise fun i j => DisjointBits (f i) (f j)) (k : ℕ) :
    (sumOf (l.map f)).testBit k = true ↔ ∃ i ∈ l, (f i).testBit k = true := by
  induction l generalizing k with
  | nil =>
    constructor
    · intro hbit
      rw [List.map_nil, sumOf, Nat.zero_testBit] at hbit
      exact absurd hbit Bool.false_ne_true
    · rintro ⟨i, hi, -⟩
      exact absurd hi List.not_mem_nil
  | cons i l ih =>
    rw [List.pairwise_cons] at h
    have hdisjoint : DisjointBits (f i) (sumOf (l.map f)) := by
      intro j hi hsum
      obtain ⟨i', hi', hbit⟩ := (ih h.2 j).mp hsum
      exact h.1 i' hi' j hi hbit
    show (f i + sumOf (l.map f)).testBit k = true ↔ _
    rw [testBit_add_of_disjoint hdisjoint, Bool.or_eq_true, ih h.2 k]
    constructor
    · rintro (hbit | ⟨i', hi', hbit⟩)
      · exact ⟨i, List.mem_cons_self, hbit⟩
      · exact ⟨i', List.mem_cons_of_mem i hi', hbit⟩
    · rintro ⟨i', hi', hbit⟩
      rcases List.mem_cons.mp hi' with rfl | hi'
      · exact Or.inl hbit
      · exact Or.inr ⟨i', hi', hbit⟩

end FreeToken
