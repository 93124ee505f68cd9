import Mathlib.Algebra.BigOperators.Intervals
import Mathlib.Algebra.Order.Group.Int

/-!
# Tiles and lanes

A range is gone through in tiles of `b`, the last of which may be cut off at the end of the range.
A tile is a vector of lanes `0, …, n - 1`.

* `sum_tiles`: a sum, tile by tile.
* `flatMap_tiles`: the tiles that hold a given index; there is one.
* `laneSum`, `laneCumsum`, `laneArgmin`, `laneArgmax`, `laneStore`: reductions and the masked store.
* `IsFirstMin`: the leftmost least lane; there is exactly one.
* `rank_eq`, `getElem?_filter_range`: the lanes of a mask in order, and their ranks by a prefix sum.
-/

namespace FreeToken

open List

variable {M : Type*} [AddCommMonoid M] {a b n t : ℕ} {f : ℕ → M}

/-! ### Loops in tiles -/

def trips (start stop block : ℕ) : ℕ := (stop - start + block - 1) / block

theorem le_add_trips_mul (hb : 0 < b) : n ≤ a + trips a n b * b := by
  have hdiv := Nat.div_add_mod (n - a + b - 1) b
  have hmod := Nat.mod_lt (n - a + b - 1) hb
  unfold trips
  rw [mul_comm]
  omega

theorem add_mul_lt (hb : 0 < b) {c : ℕ} (hc : c < trips a n b) : a + c * b < n := by
  have hmul : (c + 1) * b ≤ n - a + b - 1 :=
    (Nat.mul_le_mul_right b hc).trans (Nat.div_mul_le_self _ b)
  rw [add_mul, one_mul] at hmul
  omega

theorem sum_lanes (a b n : ℕ) (f : ℕ → M) :
    ∑ l ∈ Finset.range b, (if a + l < n then f (a + l) else 0) = ∑ i ∈ Finset.Ico a (min (a + b) n),
      f i := by
  rw [← Finset.sum_filter, Finset.sum_Ico_eq_sum_range]
  refine Finset.sum_congr (Finset.ext fun l => ?_) fun _ _ => rfl
  rw [Finset.mem_filter, Finset.mem_range, Finset.mem_range]
  omega

theorem sum_tiles (a b n : ℕ) (f : ℕ → M) (T : ℕ) :
    ∑ c ∈ Finset.range T, ∑ i ∈ Finset.Ico (a + c * b) (min (a + c * b + b) n), f i =
      ∑ i ∈ Finset.Ico a (min (a + T * b) n), f i := by
  induction T with
  | zero => rw [Finset.sum_range_zero, Finset.Ico_eq_empty_of_le (by omega), Finset.sum_empty]
  | succ T ih =>
    rw [Finset.sum_range_succ, ih, add_mul, one_mul, ← add_assoc]
    by_cases h : a + T * b ≤ n
    · rw [min_eq_left h]
      exact Finset.sum_Ico_consecutive f (Nat.le_add_right a _) (by omega)
    · -- the end is behind
      rw [Finset.Ico_eq_empty_of_le (a := a + T * b) (by omega), Finset.sum_empty, add_zero,
        min_eq_right (by omega), min_eq_right (by omega)]

theorem sum_trips (hb : 0 < b) (f : ℕ → M) :
    ∑ c ∈ Finset.range (trips a n b), ∑ l ∈
      Finset.range b, (if a + c * b + l < n then f (a + c * b + l) else 0) =
      ∑ i ∈ Finset.Ico a n, f i := by
  rw [Finset.sum_congr rfl fun c _ => sum_lanes (a + c * b) b n f, sum_tiles,
    min_eq_right (le_add_trips_mul hb)]

theorem flatMap_tiles (a b n t : ℕ) (T : ℕ) :
    (List.range T).flatMap (fun c => if a + c * b ≤ t ∧ t < min (a + c * b + b) n then [t]
      else []) =
      if a ≤ t ∧ t < min (a + T * b) n then [t] else [] := by
  induction T with
  | zero => rw [range_zero, flatMap_nil, if_neg (by omega)]
  | succ T ih =>
    rw [List.range_succ, flatMap_append, ih, flatMap_singleton, add_mul, one_mul, ← add_assoc]
    by_cases hbefore : a ≤ t ∧ t < min (a + T * b) n
    · rw [if_pos hbefore, if_neg (by omega), if_pos (by omega), append_nil]
    · rw [if_neg hbefore, nil_append]
      by_cases hin : a + T * b ≤ t ∧ t < min (a + T * b + b) n
      · rw [if_pos hin, if_pos (by omega)]
      · rw [if_neg hin, if_neg (by omega)]

/-! ### The operations on lanes -/

variable {α : Type*} {n m i j k : ℕ} {f : ℕ → ℤ} {p : ℕ → Bool}

def laneSum (n : ℕ) (f : ℕ → ℤ) : ℤ := (List.range n).foldl (fun acc i => acc + f i) 0

def laneCumsum (f : ℕ → ℤ) (i : ℕ) : ℤ := laneSum (i + 1) f

/-- The lane of the least value, the leftmost one of them. -/
def laneArgmin (f : ℕ → ℤ) : ℕ → ℕ
  | 0 => 0
  | 1 => 0
  | n + 2 => if f (n + 1) < f (laneArgmin f (n + 1)) then n + 1 else laneArgmin f (n + 1)

/-- The lane of the greatest value, the leftmost one of them. -/
def laneArgmax (f : ℕ → ℤ) (n : ℕ) : ℕ := laneArgmin (fun i => -f i) n

/-- The store of every lane in the mask, at its own index. -/
def laneStore (n : ℕ) (mask : ℕ → Bool) (idx : ℕ → ℕ) (val : ℕ → α) (t : ℕ → α) : ℕ → α :=
  (List.range n).foldl (fun t i => if mask i then Function.update t (idx i) (val i) else t) t

/-- A mask as a vector of zeros and ones. -/
def maskInt (p : ℕ → Bool) (i : ℕ) : ℤ := if p i then 1 else 0

/-! ### The least lane -/

/-- The leftmost of the lanes with the least value. -/
def IsFirstMin (f : ℕ → ℤ) (n m : ℕ) : Prop :=
  m < n ∧ ∀ j < n, f m < f j ∨ f m = f j ∧ m ≤ j

theorem IsFirstMin.unique (hi : IsFirstMin f n i) (hj : IsFirstMin f n j) : i = j := by
  have h₁ := hi.2 j hj.1
  have h₂ := hj.2 i hi.1
  omega

theorem laneArgmin_spec (hn : 0 < n) : IsFirstMin f n (laneArgmin f n) := by
  induction n with
  | zero => omega
  | succ n ih =>
    cases n with
    | zero =>
      exact ⟨Nat.one_pos, fun j hj => Or.inr ⟨by rw [Nat.lt_one_iff.mp hj]; rfl, Nat.zero_le j⟩⟩
    | succ n =>
      obtain ⟨hlt, hle⟩ := ih (Nat.succ_pos n)
      rw [laneArgmin]
      split_ifs with h
      · refine ⟨by omega, fun j hj => ?_⟩
        by_cases hj' : j < n + 1
        · have := hle j hj'
          omega
        · obtain rfl : j = n + 1 := by omega
          exact Or.inr ⟨rfl, le_rfl⟩
      · refine ⟨by omega, fun j hj => ?_⟩
        by_cases hj' : j < n + 1
        · exact hle j hj'
        · obtain rfl : j = n + 1 := by omega
          omega

theorem IsFirstMin.laneArgmin_eq (h : IsFirstMin f n m) : laneArgmin f n = m :=
  (laneArgmin_spec (Nat.lt_of_le_of_lt (Nat.zero_le m) h.1)).unique h

/-- A lane that beats every other one is the greatest. -/
theorem laneArgmax_eq (hm : m < n) (h : ∀ j < n, j ≠ m → f j < f m) : laneArgmax f n = m := by
  apply IsFirstMin.laneArgmin_eq
  refine ⟨hm, fun j hj => ?_⟩
  by_cases hjm : j = m
  · exact Or.inr ⟨by rw [hjm], hjm.ge⟩
  · have := h j hj hjm
    exact Or.inl (by show -f m < -f j; omega)

/-! ### Sums -/

theorem laneSum_succ : laneSum (n + 1) f = laneSum n f + f n := by
  rw [laneSum, List.range_succ, List.foldl_append]
  rfl

theorem laneSum_zero (h : ∀ i < n, f i = 0) : laneSum n f = 0 := by
  induction n with
  | zero => rfl
  | succ n ih =>
    rw [laneSum_succ, ih fun i hi => h i (by omega), h n (Nat.lt_succ_self n), add_zero]

theorem laneSum_eq_single (hm : m < n) (h : ∀ i < n, i ≠ m → f i = 0) : laneSum n f = f m := by
  induction n with
  | zero => omega
  | succ n ih =>
    rw [laneSum_succ]
    by_cases hmn : m = n
    · rw [laneSum_zero fun i hi => h i (by omega) (by omega), hmn, zero_add]
    · rw [ih (by omega) fun i hi => h i (by omega), h n (by omega) (Ne.symm hmn), add_zero]

theorem laneSum_maskInt : laneSum n (maskInt p) = ((List.range n).filter p).length := by
  induction n with
  | zero => rfl
  | succ n ih =>
    rw [laneSum_succ, ih, List.range_succ, List.filter_append, List.length_append, maskInt]
    cases hp : p n <;> simp [hp]

/-! ### Ranks -/

theorem rank_eq (hp : p i = true) :
    laneCumsum (maskInt p) i - 1 = ((List.range i).filter p).length := by
  rw [laneCumsum, laneSum_succ, laneSum_maskInt, maskInt, if_pos hp]
  omega

theorem getElem?_filter_range (hi : i < n) (hp : p i = true) :
    ((List.range n).filter p)[((List.range i).filter p).length]? = some i := by
  obtain ⟨d, rfl⟩ : ∃ d, n = i + 1 + d := ⟨n - (i + 1), by omega⟩
  rw [List.range_add, List.filter_append, List.range_succ, List.filter_append,
    List.filter_singleton, hp]
  simp

theorem rank_inj (hi : i < n) (hj : j < n) (hpi : p i = true) (hpj : p j = true)
    (h : ((List.range i).filter p).length = ((List.range j).filter p).length) : i = j := by
  have h₁ := getElem?_filter_range hi hpi
  rw [h, getElem?_filter_range hj hpj] at h₁
  exact (Option.some.inj h₁).symm

/-! ### The masked store -/

variable {mask : ℕ → Bool} {idx : ℕ → ℕ}

theorem laneStore_succ {val t : ℕ → α} :
    laneStore (n + 1) mask idx val t =
      if mask n then Function.update (laneStore n mask idx val t) (idx n) (val n)
      else laneStore n mask idx val t := by
  rw [laneStore, List.range_succ, List.foldl_append]
  rfl

theorem laneStore_of_ne {val t : ℕ → α}
    (h : ∀ i < n, mask i = true → idx i ≠ j) : laneStore n mask idx val t j = t j := by
  induction n with
  | zero => rfl
  | succ n ih =>
    rw [laneStore_succ]
    have ih := ih fun i hi => h i (by omega)
    split_ifs with hm
    · rw [Function.update_of_ne (h n (Nat.lt_succ_self n) hm).symm, ih]
    · exact ih

theorem laneStore_of_eq {mask : ℕ → Bool} {idx : ℕ → ℕ} {val t : ℕ → α} {v : α} (hi : i < n)
    (hm : mask i = true) (hk : idx i = k)
    (h : ∀ j < n, mask j = true → idx j = k → val j = v) : laneStore n mask idx val t k = v := by
  induction n with
  | zero => omega
  | succ n ih =>
    rw [laneStore_succ]
    by_cases hin : i = n
    · subst hin
      rw [if_pos hm, hk, Function.update_self]
      exact h i (Nat.lt_succ_self i) hm hk
    · have ih := ih (by omega) fun j hj => h j (by omega)
      split_ifs with hmn
      · by_cases heq : idx n = k
        · rw [heq, Function.update_self]
          exact h n (Nat.lt_succ_self n) hmn heq
        · rw [Function.update_of_ne (Ne.symm heq), ih]
      · exact ih

theorem laneStore_id {val t : ℕ → α} :
    laneStore n mask id val t k = if k < n ∧ mask k = true then val k else t k := by
  split_ifs with h
  · refine laneStore_of_eq h.1 h.2 rfl fun j _ _ hj => ?_
    rw [show j = k from hj]
  · refine laneStore_of_ne fun j hj hm hjk => h ?_
    rw [← show j = k from hjk]
    exact ⟨hj, hm⟩

end FreeToken
