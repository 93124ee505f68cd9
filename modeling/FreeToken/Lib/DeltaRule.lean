import FreeToken.Lib.UnitLower

/-!
# The gated delta rule

A state is a matrix of key channels and value lanes. A token decays it, channel by channel, and then
corrects what the state holds for the token's key.

* `state`, `out`: the rule, token by token.
* `state_add`, `out_add`: a run goes on where an earlier one has stopped.
* `state_succ_eq`, `out_eq`: the state and the outputs of a chunk, out of the state before it and
  the corrections.
* `decays_exp`: the decays of a chunk, out of its gates summed up.
* `delta_eq`: all corrections of a chunk at once, through the inverse of a unit lower triangular
  matrix.
-/

namespace DeltaRule

open Finset UnitLower

structure Token (R : Type*) where
  query : ℕ → R
  key : ℕ → R
  value : ℕ → R
  decay : ℕ → R
  beta : R

variable {R : Type*} [CommRing R] {dk n : ℕ} {x y : ℕ → Token R} {S₀ S₁ : ℕ → ℕ → R}

def delta (dk : ℕ) (t : Token R) (S : ℕ → ℕ → R) (e : ℕ) : R :=
  (t.value e - ∑ d ∈ range dk, S d e * t.decay d * t.key d) * t.beta

def step (dk : ℕ) (t : Token R) (S : ℕ → ℕ → R) :
  ℕ → ℕ → R := fun d e => S d e * t.decay d + t.key d * delta dk t S e

def read (dk : ℕ) (t : Token R) (S : ℕ → ℕ → R) (e : ℕ) : R := ∑ d ∈ range dk, S d e * t.query d

def state (dk : ℕ) (x : ℕ → Token R) (S₀ : ℕ → ℕ → R) : ℕ → ℕ → ℕ → R
  | 0 => S₀
  | n + 1 => step dk (x n) (state dk x S₀ n)

/-- The output of a token, read out of the state that it leaves. -/
def out (dk : ℕ) (x : ℕ → Token R) (S₀ : ℕ → ℕ → R) (n : ℕ) : ℕ → R :=
  read dk (x n) (state dk x S₀ (n + 1))

def deltaAt (dk : ℕ) (x : ℕ → Token R) (S₀ : ℕ → ℕ → R) (n : ℕ) : ℕ → R :=
  delta dk (x n) (state dk x S₀ n)

/-! ### Runs -/

theorem state_add (dk : ℕ) (x : ℕ → Token R) (S₀ : ℕ → ℕ → R) (m n : ℕ) :
    state dk x S₀ (m + n) = state dk (fun i => x (m + i)) (state dk x S₀ m) n := by
  induction n with
  | zero => rfl
  | succ n ih => rw [← Nat.add_assoc, state, state, ih]

theorem out_add (dk : ℕ) (x : ℕ → Token R) (S₀ : ℕ → ℕ → R) (m n : ℕ) :
    out dk x S₀ (m + n) = out dk (fun i => x (m + i)) (state dk x S₀ m) n := by
  rw [out, out, Nat.add_assoc, state_add]

theorem state_congr_run (h : ∀ i < n, x i = y i) : state dk x S₀ n = state dk y S₀ n := by
  induction n with
  | zero => rfl
  | succ n ih =>
    rw [state, state, ih fun i hi => h i (hi.trans (Nat.lt_succ_self n)), h n (Nat.lt_succ_self n)]

theorem out_congr_run (h : ∀ i < n + 1, x i = y i) : out dk x S₀ n = out dk y S₀ n := by
  rw [out, out, state_congr_run h, h n (Nat.lt_succ_self n)]

/-- A token without a key, and without a decay, leaves the state alone. -/
theorem step_neutral {t : Token R} (hk : ∀ d, t.key d = 0) (hd : ∀ d, t.decay d = 1)
    (S : ℕ → ℕ → R) :
    step dk t S = S := by
  funext d e
  rw [step, hk d, hd d, mul_one, zero_mul, add_zero]

theorem state_neutral (m : ℕ) (hk : ∀ i, m ≤ i → ∀ d, (x i).key d = 0)
    (hd : ∀ i, m ≤ i → ∀ d, (x i).decay d = 1)
    (k : ℕ) : state dk x S₀ (m + k) = state dk x S₀ m := by
  induction k with
  | zero => rfl
  | succ k ih =>
    rw [← Nat.add_assoc, state, step_neutral (hk (m + k) (by omega)) (hd (m + k) (by omega)), ih]

/-! ### Chunks -/

/-- The decays of a chunk of `n` tokens, multiplied up: from the start, and from one token to a
later one. -/
structure Decays (n : ℕ) (x : ℕ → Token R) (E : ℕ → ℕ → R) (D : ℕ → ℕ → ℕ → R) : Prop where
  start : ∀ d, 0 < n → E 0 d = (x 0).decay d
  start_succ : ∀ i d, i + 1 < n → E (i + 1) d = E i d * (x (i + 1)).decay d
  self : ∀ i d, i < n → D i i d = 1
  succ : ∀ i s d, s ≤ i → i + 1 < n → D (i + 1) s d = D i s d * (x (i + 1)).decay d

/-- The gates of a chunk summed up, a channel each. -/
def gateSum (g : ℕ → ℕ → R) (i d : ℕ) : R := ∑ s ∈ range (i + 1), g s d

/-- The decays out of gates in log space. -/
theorem decays_exp {exp : R → R} (hzero : exp 0 = 1) (hadd : ∀ a b, exp (a + b) = exp a * exp b)
    {g : ℕ → ℕ → R} (hx : ∀ i < n, ∀ d, (x i).decay d = exp (g i d)) :
    Decays n x (fun i d => exp (gateSum g i d)) fun i s d => exp (gateSum g i d - gateSum g s d)
      where
  start d hn := by rw [hx 0 hn d, gateSum, sum_range_one]
  start_succ i d hi := by rw [hx (i + 1) hi d, gateSum, gateSum, sum_range_succ _ (i + 1), hadd]
  self i d _ := by rw [sub_self, hzero]
  succ i s d _ hi := by
    rw [hx (i + 1) hi d, gateSum, sum_range_succ _ (i + 1), ← gateSum, add_sub_right_comm, hadd]

variable {E : ℕ → ℕ → R} {D : ℕ → ℕ → ℕ → R} {T : ℕ → ℕ → R}

theorem Decays.decayed_eq (h : Decays n x E D) {i : ℕ} (hi : i < n) (d e : ℕ) :
    state dk x S₀ i d e * (x i).decay d =
      S₀ d e * E i d + ∑ s ∈ range i, D i s d * (x s).key d * deltaAt dk x S₀ s e := by
  induction i with
  | zero => rw [state, h.start d hi, sum_range_zero, add_zero]
  | succ i ih =>
    have hdecay : ∀ s ∈ range i, D (i + 1) s d * (x s).key d * deltaAt dk x S₀ s e =
        D i s d * (x s).key d * deltaAt dk x S₀ s e * (x (i + 1)).decay d := fun s hs => by
      rw [h.succ i s d (mem_range.mp hs).le hi]
      ring
    rw [state, step, ih (by omega), sum_range_succ, sum_congr rfl hdecay, ← sum_mul,
      h.start_succ i d hi, h.succ i i d le_rfl hi, h.self i d (by omega), deltaAt]
    ring

theorem Decays.state_succ_eq (h : Decays n x E D) {i : ℕ} (hi : i < n) (d e : ℕ) :
    state dk x S₀ (i + 1) d e =
      S₀ d e * E i d + ∑ s ∈ range (i + 1), D i s d * (x s).key d * deltaAt dk x S₀ s e := by
  rw [state, step, h.decayed_eq hi, sum_range_succ, h.self i d hi, one_mul, add_assoc, deltaAt]

/-- What a token sees of the key of an earlier one. -/
def gram (dk : ℕ) (x : ℕ → Token R) (D : ℕ → ℕ → ℕ → R) (i s : ℕ) : R :=
  (x i).beta * ∑ d ∈ range dk, (x i).key d * D i s d * (x s).key d

/-- The corrections of a chunk solve a triangular system. -/
theorem Decays.delta_solves (h : Decays n x E D) {i : ℕ} (hi : i < n) (e : ℕ) :
    deltaAt dk x S₀ i e =
      (x i).beta * (x i).value e - ∑ d ∈ range dk, (x i).beta * E i d * (x i).key d * S₀ d e -
        ∑ s ∈ range i, gram dk x D i s * deltaAt dk x S₀ s e := by
  have hsum : ∑ d ∈ range dk, state dk x S₀ i d e * (x i).decay d * (x i).key d =
      ∑ d ∈ range dk, E i d * (x i).key d * S₀ d e +
        ∑ s ∈ range i, (∑ d ∈ range dk, (x i).key d * D i s d * (x s).key d) *
          deltaAt dk x S₀ s e := by
    simp only [sum_mul]
    rw [sum_comm (s := range i), ← sum_add_distrib]
    refine sum_congr rfl fun d _ => ?_
    rw [h.decayed_eq hi, add_mul, sum_mul]
    congr 1
    · ring
    · exact sum_congr rfl fun s _ => by ring
  simp only [deltaAt, delta, gram] at hsum ⊢
  rw [hsum]
  simp only [mul_assoc (x i).beta, ← mul_sum]
  ring

theorem Decays.delta_eq (h : Decays n x E D) (hT : Inverts n (gram dk x D) T) {i : ℕ} (hi : i < n)
    (e : ℕ) :
    deltaAt dk x S₀ i e = ∑ j ∈ range n, T i j * ((x j).beta * (x j).value e) -
      ∑ d ∈ range dk, (∑ j ∈ range n, T i j * ((x j).beta * E j d * (x j).key d)) * S₀ d e := by
  have hsolved :=
    hT.eq_of_solves (x := fun i => deltaAt dk x S₀ i e) (fun i hi => h.delta_solves hi e) hi
  have hswap :
      ∑ d ∈ range dk, (∑ j ∈ range n, T i j * ((x j).beta * E j d * (x j).key d)) * S₀ d e =
      ∑ j ∈ range n, T i j * ∑ d ∈ range dk, (x j).beta * E j d * (x j).key d * S₀ d e := by
    simp only [sum_mul, mul_sum]
    rw [sum_comm]
    exact sum_congr rfl fun j _ => sum_congr rfl fun d _ => mul_assoc _ _ _
  rw [hsolved, hswap, ← sum_sub_distrib]
  exact sum_congr rfl fun j _ => mul_sub _ _ _

theorem Decays.out_eq (h : Decays n x E D) {i : ℕ} (hi : i < n) (e : ℕ) :
    out dk x S₀ i e = ∑ d ∈ range dk, (x i).query d * E i d * S₀ d e +
      ∑ s ∈ range (i + 1), (∑ d ∈ range dk, (x i).query d * D i s d * (x s).key d) *
        deltaAt dk x S₀ s e := by
  simp only [sum_mul]
  rw [out, read, sum_comm (s := range (i + 1)), ← sum_add_distrib]
  refine sum_congr rfl fun d _ => ?_
  rw [h.state_succ_eq hi, add_mul, sum_mul]
  congr 1
  · ring
  · exact sum_congr rfl fun s _ => by ring

end DeltaRule
