import Mathlib.Tactic.Ring

/-!
# Memory and rounding

* `Bytes`, `Memory`: buffers and memories.
* `alignDown`, `divCeil`: lengths in whole pages.
-/

namespace FreeToken

abbrev Bytes := List UInt8

abbrev Memory := ℕ → UInt8

/-! ### Rounding -/

def alignDown (a b : ℕ) : ℕ := a / b * b

def divCeil (a b : ℕ) : ℕ := (a + b - 1) / b

theorem alignDown_le (a b : ℕ) : alignDown a b ≤ a := Nat.div_mul_le_self a b

theorem dvd_alignDown (a b : ℕ) : b ∣ alignDown a b := Nat.dvd_mul_left b (a / b)

variable {b a k : ℕ}

theorem le_alignDown_iff (hk : b ∣ k) : k ≤ alignDown a b ↔ k ≤ a := by
  obtain ⟨c, rfl⟩ := hk
  rcases Nat.eq_zero_or_pos b with rfl | hb
  · simp [alignDown]
  · rw [alignDown, Nat.mul_comm b c, Nat.mul_le_mul_right_iff hb, Nat.le_div_iff_mul_le hb]

theorem le_divCeil_mul (hb : 0 < b) : a ≤ divCeil a b * b := by
  have h := Nat.lt_div_mul_add (a := a + b - 1) hb
  unfold divCeil
  omega

theorem divCeil_mul_lt (hb : 0 < b) : divCeil a b * b < a + b := by
  have h := Nat.div_mul_le_self (a + b - 1) b
  unfold divCeil
  omega

theorem divCeil_mul_le_iff (hb : 0 < b) (hk : b ∣ k) : divCeil a b * b ≤ k ↔ a ≤ k := by
  constructor
  · exact fun h => (le_divCeil_mul hb).trans h
  · intro h
    obtain ⟨c, rfl⟩ := hk
    have h₁ := divCeil_mul_lt (a := a) hb
    have h₂ : divCeil a b * b < (c + 1) * b := by
      rw [Nat.add_mul, Nat.one_mul, Nat.mul_comm c b]
      omega
    have h₃ : divCeil a b ≤ c := Nat.lt_succ_iff.mp (Nat.lt_of_mul_lt_mul_right h₂)
    rw [Nat.mul_comm b c]
    exact Nat.mul_le_mul_right b h₃

theorem divCeil_mul_eq_self (hb : 0 < b) (h : b ∣ a) : divCeil a b * b = a :=
  le_antisymm ((divCeil_mul_le_iff hb h).mpr le_rfl) (le_divCeil_mul hb)

theorem divCeil_mul_add (hb : 0 < b) (q n : ℕ) : divCeil (q * b + n) b = q + divCeil n b := by
  unfold divCeil
  have : q * b + n + b - 1 = n + b - 1 + b * q := by rw [Nat.mul_comm b q]; omega
  rw [this, Nat.add_mul_div_left _ _ hb, Nat.add_comm]

theorem divCeil_zero (hb : 0 < b) : divCeil 0 b = 0 := Nat.div_eq_of_lt (by omega)

theorem divCeil_mul (hb : 0 < b) (q : ℕ) : divCeil (q * b) b = q := by
  have := divCeil_mul_add hb q 0
  rwa [divCeil_zero hb, Nat.add_zero] at this

theorem divCeil_mono {a' : ℕ} (h : a ≤ a') (b : ℕ) : divCeil a b ≤ divCeil a' b :=
  Nat.div_le_div_right (by omega)

end FreeToken
