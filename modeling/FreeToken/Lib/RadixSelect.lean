import FreeToken.Lib.LeastK
import Mathlib.Algebra.Order.Ring.Nat
import Mathlib.Data.Prod.Lex

/-!
# Radix select

The `k`-th greatest of some values is found digit by digit, the most significant one first.

* `topOrder`: the greater value first, then the lesser index.
* `Locates`: the digits that are known, and how many values of the range they pin are still to be
  found.  A pass finds one digit more (`Locates.digit`).
* `IsThreshold`: a value, and how many of those that are equal to it are taken.  A search ends in
  one (`Locates.isThreshold`, `Locates.isThreshold_of_settled`), and one selects the first `k` in
  the top order (`IsThreshold.rankBy_lt_iff`).
-/

variable {ι α : Type*} {l : List ι} {a b : ι}

/-! ### Counting -/

theorem countP_eq_add {p q r : ι → Bool} (h : ∀ a ∈ l, p a = true ↔ q a = true ∨ r a = true)
    (hdisj : ∀ a ∈ l, q a = true → r a = false) : l.countP p = l.countP q + l.countP r := by
  induction l with
  | nil => rfl
  | cons c l ih =>
    have ih := ih (fun a ha => h a (List.mem_cons_of_mem c ha)) fun a ha =>
      hdisj a (List.mem_cons_of_mem c ha)
    have hc := h c List.mem_cons_self
    have hcd := hdisj c List.mem_cons_self
    rw [List.countP_cons, List.countP_cons, List.countP_cons, ih]
    cases hq : q c <;> cases hr : r c <;> simp_all <;> omega

/-! ### The order of a top-k -/

section TopOrder

variable {x : ι → α}

/-- The greater value first, then the lesser index. -/
def topOrder (x : ι → α) (a : ι) : αᵒᵈ ×ₗ ι := toLex (OrderDual.toDual (x a), a)

theorem topOrder_injective : Function.Injective (topOrder x) := by
  intro a b h
  have hpair := congrArg ofLex h
  exact congrArg Prod.snd hpair

variable [LinearOrder ι] [LinearOrder α]

theorem topOrder_lt : topOrder x a < topOrder x b ↔ x b < x a ∨ x a = x b ∧ a < b := by
  unfold topOrder
  rw [Prod.Lex.toLex_lt_toLex]
  simp

theorem rankBy_topOrder :
    rankBy (topOrder x) l a = l.countP (fun b => x a < x b) + l.countP fun b => x b = x a ∧
      b < a := by
  unfold rankBy
  apply countP_eq_add
  · intro b _
    simp only [decide_eq_true_eq]
    exact topOrder_lt
  · intro b _ hb
    have hlt := of_decide_eq_true hb
    exact decide_eq_false fun h => absurd h.1 hlt.ne'

end TopOrder

/-! ### The search -/

variable {x : ι → ℕ} {k s w q m m' t ties : ℕ}

/-- The `k`-th greatest value lies among those with the quotient `q` by `2 ^ s`, and is the `m`-th
greatest of them. Where there are fewer than `k` values, `q` is 0. -/
structure Locates (x : ι → ℕ) (l : List ι) (k s q m : ℕ) : Prop where
  pos : 0 < m
  above : l.countP (fun a => q < x a / 2 ^ s) + m = k
  inside : q = 0 ∨ m ≤ l.countP fun a => x a / 2 ^ s = q

namespace Locates

theorem start (hk : 0 < k) (hx : ∀ a ∈ l, x a < 2 ^ s) : Locates x l k s 0 k := by
  refine ⟨hk, ?_, Or.inl rfl⟩
  have hzero : (l.countP fun a => decide (0 < x a / 2 ^ s)) = 0 := by
    rw [List.countP_eq_zero]
    intro a ha
    rw [decide_eq_true_eq, Nat.div_eq_of_lt (hx a ha)]
    exact Nat.lt_irrefl 0
  rw [hzero, Nat.zero_add]

/-- A quotient by a lesser power: the old one, and a digit behind it. -/
theorem quotient_eq (n s w : ℕ) : n / 2 ^ s = n / 2 ^ (s + w) * 2 ^ w + n / 2 ^ s % 2 ^ w := by
  rw [pow_add, ← Nat.div_div_eq_div_mul]
  exact (Nat.div_add_mod' _ _).symm

theorem quotient_lt_iff {n b : ℕ} (hb : b < 2 ^ w) :
    q * 2 ^ w + b < n / 2 ^ s ↔ q < n / 2 ^ (s + w) ∨ n / 2 ^ (s + w) = q ∧
      b < n / 2 ^ s % 2 ^ w := by
  have hn := quotient_eq n s w
  have hmod : n / 2 ^ s % 2 ^ w < 2 ^ w := Nat.mod_lt _ (Nat.two_pow_pos w)
  generalize n / 2 ^ s % 2 ^ w = d at *
  generalize n / 2 ^ (s + w) = c at *
  rw [hn]
  rcases Nat.lt_trichotomy q c with h | h | h
  · have hmul : (q + 1) * 2 ^ w ≤ c * 2 ^ w := Nat.mul_le_mul_right _ h
    rw [Nat.add_mul, Nat.one_mul] at hmul
    exact ⟨fun _ => Or.inl h, fun _ => by omega⟩
  · subst h
    constructor
    · intro h
      exact Or.inr ⟨rfl, by omega⟩
    · rintro (h | h)
      · exact absurd h (Nat.lt_irrefl q)
      · omega
  · have hmul : (c + 1) * 2 ^ w ≤ q * 2 ^ w := Nat.mul_le_mul_right _ h
    rw [Nat.add_mul, Nat.one_mul] at hmul
    constructor
    · intro hlt
      omega
    · rintro (h' | h') <;> omega

theorem quotient_eq_iff {n b : ℕ} (hb : b < 2 ^ w) :
    n / 2 ^ s = q * 2 ^ w + b ↔ n / 2 ^ (s + w) = q ∧ n / 2 ^ s % 2 ^ w = b := by
  constructor
  · intro h
    have hdiv : n / 2 ^ (s + w) = q := by
      rw [pow_add, ← Nat.div_div_eq_div_mul, h, Nat.mul_comm, Nat.mul_add_div (Nat.two_pow_pos w),
        Nat.div_eq_of_lt hb, Nat.add_zero]
    refine ⟨hdiv, ?_⟩
    rw [h, Nat.mul_comm, Nat.mul_add_mod, Nat.mod_eq_of_lt hb]
  · rintro ⟨rfl, rfl⟩
    exact quotient_eq n s w

/-- One pass: the next digit is the least one with fewer than `m` values above it in the range. -/
theorem digit {b : ℕ} (h : Locates x l k (s + w) q m) (hb : b < 2 ^ w)
    (habove : l.countP (fun a => x a / 2 ^ (s + w) = q ∧ b < x a / 2 ^ s % 2 ^ w) + m' = m)
    (hm' : 0 < m')
    (hfirst : b = 0 ∨ m ≤ l.countP fun a => x a / 2 ^ (s + w) = q ∧ b ≤ x a / 2 ^ s % 2 ^ w) :
    Locates x l k s (q * 2 ^ w + b) m' := by
  have hgreater : (l.countP fun a => q * 2 ^ w + b < x a / 2 ^ s) =
      (l.countP fun a => q < x a / 2 ^ (s + w)) +
        l.countP fun a => x a / 2 ^ (s + w) = q ∧ b < x a / 2 ^ s % 2 ^ w := by
    apply countP_eq_add
    · intro a _
      simp only [decide_eq_true_eq]
      exact quotient_lt_iff hb
    · intro a _ ha
      exact decide_eq_false fun h => absurd h.1 (of_decide_eq_true ha).ne'
  -- the values of the range from the digit on
  have hfrom : (l.countP fun a => x a / 2 ^ (s + w) = q ∧ b ≤ x a / 2 ^ s % 2 ^ w) =
      (l.countP fun a => x a / 2 ^ (s + w) = q ∧ b < x a / 2 ^ s % 2 ^ w) +
        l.countP fun a => x a / 2 ^ s = q * 2 ^ w + b := by
    apply countP_eq_add
    · intro a _
      simp only [decide_eq_true_eq, quotient_eq_iff hb]
      omega
    · intro a _ ha
      have hlt := (of_decide_eq_true ha).2
      exact decide_eq_false fun h => absurd ((quotient_eq_iff hb).mp h).2 hlt.ne'
  refine ⟨hm', ?_, ?_⟩
  · rw [hgreater]
    have habove' := h.above
    omega
  · by_cases hzero : q * 2 ^ w + b = 0
    · exact Or.inl hzero
    · right
      have hm : m ≤ l.countP fun a => x a / 2 ^ (s + w) = q ∧ b ≤ x a / 2 ^ s % 2 ^ w := by
        rcases hfirst with rfl | hfirst
        · -- the whole range
          rcases h.inside with rfl | hin
          · exact absurd (by simp) hzero
          · have hall : (l.countP fun a => x a / 2 ^ (s + w) = q ∧ 0 ≤ x a / 2 ^ s % 2 ^ w) =
                l.countP fun a => x a / 2 ^ (s + w) = q := by
              apply List.countP_congr
              intro a _
              simp
            rw [hall]
            exact hin
        · exact hfirst
      omega

end Locates

/-! ### The threshold -/

/-- A value with at most `k` values above it, and how many of those equal to it are taken: as many
as are missing. -/
structure IsThreshold (x : ι → ℕ) (l : List ι) (k t ties : ℕ) : Prop where
  above_le : l.countP (fun a => t < x a) ≤ k
  covers : t = 0 ∨ k ≤ l.countP (fun a => t < x a) + l.countP fun a => x a = t
  ties_eq : min ties (l.countP fun a => x a = t) =
    min (k - l.countP fun a => t < x a) (l.countP fun a => x a = t)

/-- All digits are known. -/
theorem Locates.isThreshold (h : Locates x l k 0 q m) : IsThreshold x l k q m := by
  obtain ⟨hpos, habove, hin⟩ := h
  simp only [pow_zero, Nat.div_one] at habove hin
  refine ⟨by omega, ?_, ?_⟩
  · rcases hin with hin | hin
    · exact Or.inl hin
    · exact Or.inr (by omega)
  · rw [← habove, Nat.add_sub_cancel_left]

theorem Locates.isThreshold_of_settled (h : Locates x l k s q m)
    (hm : m = l.countP fun a => x a / 2 ^ s = q) :
    IsThreshold x l k (q * 2 ^ s) k := by
  have hge : (l.countP fun a => q * 2 ^ s < x a) + (l.countP fun a => x a = q * 2 ^ s) = k := by
    rw [← h.above, hm, ← countP_eq_add (p := fun a => decide (q * 2 ^ s ≤ x a)),
      ← countP_eq_add (p := fun a => decide (q * 2 ^ s ≤ x a))]
    · intro a _
      simp only [decide_eq_true_eq]
      rw [← Nat.le_div_iff_mul_le (Nat.two_pow_pos s)]
      omega
    · intro a _ ha
      have hlt := of_decide_eq_true ha
      exact decide_eq_false fun h => absurd h hlt.ne'
    · intro a _
      simp only [decide_eq_true_eq]
      omega
    · intro a _ ha
      have hlt := of_decide_eq_true ha
      exact decide_eq_false fun h => absurd h hlt.ne'
  refine ⟨by omega, Or.inr hge.ge, ?_⟩
  omega

theorem IsThreshold.rankBy_lt_iff [LinearOrder ι] (h : IsThreshold x l k t ties)
    (hx : ∀ a ∈ l, 0 < x a) (ha : a ∈ l) :
    rankBy (topOrder x) l a < k ↔ t < x a ∨ x a = t ∧ (l.countP fun b => x b = t ∧ b < a) <
      ties := by
  rw [rankBy_topOrder]
  obtain ⟨hle, hcovers, hties⟩ := h
  rcases Nat.lt_trichotomy t (x a) with hlt | heq | hgt
  · -- above the threshold: whatever comes before is above it too
    have hsplit : (l.countP fun b => x a < x b) + (l.countP fun b => x b = x a ∧ b < a) <
        l.countP fun b => t < x b := by
      rw [← rankBy_topOrder, rankBy, List.countP_eq_length_filter, List.countP_eq_length_filter]
      have hsub : (l.filter fun b => topOrder x b < topOrder x a) =
          (l.filter fun b => t < x b).filter fun b => topOrder x b < topOrder x a := by
        rw [List.filter_filter]
        apply List.filter_congr
        intro b _
        rw [Bool.eq_iff_iff]
        simp only [Bool.and_eq_true, decide_eq_true_eq]
        refine ⟨fun h => ⟨h, ?_⟩, fun h => h.1⟩
        rcases topOrder_lt.mp h with h | h
        · exact hlt.trans h
        · rw [h.1]
          exact hlt
      rw [hsub, List.length_filter_lt_length_iff_exists]
      exact ⟨a, List.mem_filter.mpr ⟨ha, decide_eq_true hlt⟩, by simp⟩
    exact ⟨fun _ => Or.inl hlt, fun _ => by omega⟩
  · subst heq
    -- among the equal ones, the place decides
    have hplace : (l.countP fun b => x b = x a ∧ b < a) < l.countP fun b => x b = x a := by
      rw [List.countP_eq_length_filter, List.countP_eq_length_filter]
      have hsub : (l.filter fun b => x b = x a ∧ b < a) =
          (l.filter fun b => x b = x a).filter fun b => b < a := by
        rw [List.filter_filter]
        apply List.filter_congr
        intro b _
        rw [Bool.eq_iff_iff]
        simp only [Bool.and_eq_true, decide_eq_true_eq]
        exact and_comm
      rw [hsub, List.length_filter_lt_length_iff_exists]
      exact ⟨a, List.mem_filter.mpr ⟨ha, by simp⟩, by simp⟩
    constructor
    · intro hlt
      exact Or.inr ⟨rfl, by omega⟩
    · rintro (hlt | ⟨-, hlt⟩)
      · exact absurd hlt (Nat.lt_irrefl _)
      · omega
  · have hmono :
        (l.countP fun b => t < x b) + (l.countP fun b => x b = t) ≤ l.countP fun b =>
        x a < x b := by
      rw [← countP_eq_add (p := fun b => decide (t ≤ x b))]
      · apply List.countP_mono_left
        intro b _ hb
        exact decide_eq_true (hgt.trans_le (of_decide_eq_true hb))
      · intro b _
        simp only [decide_eq_true_eq]
        omega
      · intro b _ hb
        have hlt := of_decide_eq_true hb
        exact decide_eq_false fun h => absurd h hlt.ne'
    have hpos := hx a ha
    constructor
    · intro hlt
      omega
    · rintro (hlt | ⟨heq, -⟩) <;> omega
