import FreeToken.Lib.DeltaRule
import FreeToken.Models.Qwen4Exp.GdnReference
import Mathlib.Analysis.SpecialFunctions.Exp

/-!
# The two reference rules compute the same

* `recurrentHead_eq`: the rule token by token is the gated delta rule.
* `inverts_attnSolve`: the substitution of a chunk inverts what its tokens see of each other.
* `chunkStep_eq`: a chunk does what its tokens do one after the other.
* `chunkGatedDeltaRule_eq`: the rules agree.
-/

namespace FreeToken.GdnReference

open Finset DeltaRule UnitLower

variable {R : Type*} [Field R] {exp sqrt : R → R} {chunkSize c i t : ℕ} {x : GdnHead R}
  {S : ℕ → ℕ → R}

def GdnHead.token (exp : R → R) (x : GdnHead R) (t : ℕ) : Token R where
  query := x.query t
  key := x.key t
  value := x.value t
  decay _ := exp (x.g t)
  beta := x.beta t

/-! ### Token by token -/

theorem recurrentStep_eq (out : ℕ → ℕ → R) (t : ℕ) :
    recurrentStep exp x (out, state x.dk (x.token exp) S t) t =
    (Function.update out t (DeltaRule.out x.dk (x.token exp) S t), state x.dk (x.token exp) S
      (t + 1)) := rfl

theorem recurrent_rounds (n : ℕ) : (List.range n).foldl (recurrentStep exp x) (fun _ _ => 0, S) =
    (fun t e => if t < n then out x.dk (x.token exp) S t e else 0, state x.dk (x.token exp) S
      n) := by
  induction n with
  | zero => rfl
  | succ n ih =>
    rw [List.range_succ, List.foldl_append, ih, List.foldl_cons, List.foldl_nil, recurrentStep_eq]
    refine Prod.ext (funext₂ fun t e => ?_) rfl
    dsimp only
    by_cases ht : t = n
    · obtain rfl := ht
      rw [Function.update_self, if_pos (Nat.lt_succ_self t)]
    · rw [Function.update_of_ne ht]
      exact if_congr (by omega) rfl rfl

theorem recurrentHead_eq (x : GdnHead R) (S : ℕ → ℕ → R) : recurrentHead exp sqrt x S =
    (fun t e => if t < x.tLen then out x.dk ((x.scaled sqrt).token exp) S t e else 0,
      state x.dk ((x.scaled sqrt).token exp) S x.tLen) :=
  recurrent_rounds x.tLen

/-! ### A chunk -/

def chunkToken (exp : R → R) (x : GdnHead R) (chunkSize c i : ℕ) : Token R :=
  x.token exp (c * chunkSize + i)

/-- The decay between two tokens of a chunk. -/
def chunkDecay (exp : R → R) (x : GdnHead R) (chunkSize c i s : ℕ) : R :=
  exp ((x.chunk chunkSize c).g i - (x.chunk chunkSize c).g s)

section Chunk

variable (hzero : exp 0 = 1) (hadd : ∀ a b, exp (a + b) = exp a * exp b)
include hzero hadd

theorem decays_chunk (x : GdnHead R) (chunkSize c n : ℕ) : Decays n (chunkToken exp x chunkSize c)
    (fun i _ => exp ((x.chunk chunkSize c).g i)) (fun i s _ => chunkDecay exp x chunkSize c i s) :=
  decays_exp hzero hadd (g := fun i _ => x.g (c * chunkSize + i)) fun _ _ _ => rfl

omit hzero hadd in
theorem decayMask_of_le {g : ℕ → R} {i s : ℕ} (h : s ≤ i) :
    decayMask exp g i s = exp (g i - g s) := by
  rw [decayMask, tril, if_pos h, tril, if_pos h]

omit hzero hadd in
theorem strictLower_attnStart (y : GdnChunk R) (dk : ℕ) : StrictLower (attnStart exp dk y) :=
    fun i j h => by
  rw [attnStart, if_pos h, neg_zero]

omit hzero hadd in
/-- A row is worked out in place, before its diagonal only. -/
theorem isRound_attnRow (y : GdnChunk R) (n dk : ℕ) : IsRound n (attnStart exp dk y) attnRow where
  other X i r j hr := if_neg fun h => hr h.1
  row X i j _ hX hrow := by
    rw [attnRow, hrow]
    by_cases hj : j < i
    · rw [if_pos ⟨rfl, hj⟩]
    · rw [if_neg fun h => hj h.2, sum_eq_zero fun l hl => ?_, add_zero]
      have hlj : l ≤ j := (mem_range.mp hl).le.trans (Nat.le_of_not_lt hj)
      rw [hX l j hlj, mul_zero]

omit hzero hadd in
theorem inverts_attnSolve (hc : 0 < chunkSize) : Inverts chunkSize
    (gram x.dk (chunkToken exp x chunkSize c) fun i s _ => chunkDecay exp x chunkSize c i s)
    (attnSolve exp chunkSize x.dk (x.chunk chunkSize c)) := by
  have hlow : StrictLower (attnStart exp x.dk (x.chunk chunkSize c)) := strictLower_attnStart _ _
  obtain ⟨-, hsolved, -⟩ := solved_rounds (isRound_attnRow (x.chunk chunkSize c) chunkSize x.dk)
    hlow one_le_two (chunkSize - 1) fun i _ hi => by omega
  refine (inverts_of_solved hlow fun r hr => hsolved r (by omega)).congr fun i _ l hl => ?_
  rw [attnStart, if_neg (Nat.not_le.mpr hl), neg_neg, decayMask_of_le hl.le, gram, sum_mul, mul_sum]
  refine sum_congr rfl fun d _ => ?_
  show x.key (c * chunkSize + i) d * x.beta (c * chunkSize + i) * x.key (c * chunkSize + l) d *
    chunkDecay exp x chunkSize c i l = _
  show _ = x.beta (c * chunkSize + i) *
    (x.key (c * chunkSize + i) d * chunkDecay exp x chunkSize c i l * x.key (c * chunkSize + l) d)
  ring

theorem vNew_eq (hc : 0 < chunkSize) (hi : i < chunkSize) (e : ℕ) :
    ∑ j ∈ range chunkSize, attnSolve exp chunkSize x.dk (x.chunk chunkSize c) i j *
      (x.chunk chunkSize c).vBeta j e -
      ∑ d ∈ range x.dk, (∑ j ∈ range chunkSize, attnSolve exp chunkSize x.dk (x.chunk chunkSize c) i
        j * ((x.chunk chunkSize c).kBeta j d * exp ((x.chunk chunkSize c).g j))) * S d e =
      deltaAt x.dk (chunkToken exp x chunkSize c) S i e := by
  rw [(decays_chunk hzero hadd x chunkSize c chunkSize).delta_eq (inverts_attnSolve hc) hi e]
  congr 1
  · refine sum_congr rfl fun j _ => ?_
    congr 1
    exact mul_comm _ _
  · refine sum_congr rfl fun d _ => ?_
    congr 1
    refine sum_congr rfl fun j _ => ?_
    congr 1
    show x.key (c * chunkSize + j) d * x.beta (c * chunkSize + j) *
      exp ((x.chunk chunkSize c).g j) =
      x.beta (c * chunkSize + j) * exp ((x.chunk chunkSize c).g j) * x.key (c * chunkSize + j) d
    ring

theorem chunkStep_out (hc : 0 < chunkSize) (hi : i < chunkSize) (e : ℕ) :
    (chunkStep exp chunkSize x.dk (x.chunk chunkSize c) S).1 i e =
      out x.dk (chunkToken exp x chunkSize c) S i e := by
  rw [(decays_chunk hzero hadd x chunkSize c chunkSize).out_eq hi e]
  show _ + ∑ j ∈ range chunkSize, _ * (_ - _) = _
  congr 1
  -- the tokens after this one are masked
  rw [← sum_subset (range_mono (Nat.succ_le_of_lt hi))]
  · refine sum_congr rfl fun j hj => ?_
    have hji : j ≤ i := Nat.le_of_lt_succ (mem_range.mp hj)
    rw [vNew_eq hzero hadd hc (Nat.lt_of_le_of_lt hji hi) e]
    congr 1
    show (∑ d ∈ range x.dk, _) * decayMask exp _ i j = _
    rw [decayMask_of_le hji, sum_mul]
    exact sum_congr rfl fun d _ => mul_right_comm _ _ _
  · intro j _ hj
    have hji : ¬j ≤ i := fun h => hj (mem_range.mpr (Nat.lt_succ_of_le h))
    show _ * decayMask exp _ i j * _ = 0
    rw [decayMask, tril, if_neg hji, mul_zero, zero_mul]

theorem chunkStep_state (hc : 0 < chunkSize) :
    (chunkStep exp chunkSize x.dk (x.chunk chunkSize c) S).2 =
    state x.dk (chunkToken exp x chunkSize c) S chunkSize := by
  funext d e
  have hlast : chunkSize - 1 + 1 = chunkSize := Nat.sub_add_cancel hc
  have hstate : state x.dk (chunkToken exp x chunkSize c) S (chunkSize - 1 + 1) d e = _ :=
    (decays_chunk hzero hadd x chunkSize c chunkSize).state_succ_eq (Nat.sub_one_lt_of_lt hc) d e
  rw [hlast] at hstate
  rw [hstate]
  show _ + ∑ j ∈ range chunkSize, _ * (_ - _) = _
  congr 1
  refine sum_congr rfl fun j hj => ?_
  rw [vNew_eq hzero hadd hc (mem_range.mp hj) e]
  congr 1
  exact mul_comm _ _

/-! ### The chunks in order -/

theorem chunk_rounds (hc : 0 < chunkSize) (n : ℕ) :
    (∀ c < n, ∀ i < chunkSize, ∀ e,
      ((List.range n).foldl (chunkLoop exp chunkSize x) (fun _ _ _ => 0, S)).1 c i e =
        out x.dk (x.token exp) S (c * chunkSize + i) e) ∧
      ((List.range n).foldl (chunkLoop exp chunkSize x) (fun _ _ _ => 0, S)).2 =
        state x.dk (x.token exp) S (n * chunkSize) := by
  induction n with
  | zero => exact ⟨fun c hc => absurd hc (Nat.not_lt_zero c), by rw [Nat.zero_mul]; rfl⟩
  | succ n ih =>
    obtain ⟨hout, hstate⟩ := ih
    rw [List.range_succ, List.foldl_append, List.foldl_cons, List.foldl_nil, chunkLoop, hstate]
    refine ⟨fun c hcn i hi e => ?_, ?_⟩
    · dsimp only
      by_cases hlast : c = n
      · obtain rfl := hlast
        rw [Function.update_self, chunkStep_out hzero hadd hc hi, out_add]
        rfl
      · rw [Function.update_of_ne hlast, hout c (by omega) i hi]
    · rw [chunkStep_state hzero hadd hc, Nat.succ_mul, state_add]
      rfl

omit hzero hadd in
theorem total_div_mul (hc : 0 < chunkSize) (tLen : ℕ) :
    (tLen + padSize chunkSize tLen) / chunkSize * chunkSize = tLen + padSize chunkSize tLen := by
  apply Nat.div_mul_cancel
  have hlt := Nat.mod_lt tLen hc
  rw [padSize, Nat.dvd_iff_mod_eq_zero, Nat.add_mod, Nat.mod_mod]
  by_cases hzero : tLen % chunkSize = 0
  · rw [hzero, Nat.sub_zero, Nat.mod_self, Nat.zero_add, Nat.zero_mod]
  · rw [Nat.mod_eq_of_lt (by omega : chunkSize - tLen % chunkSize < chunkSize),
      Nat.add_sub_cancel' hlt.le, Nat.mod_self]

omit hzero hadd in
theorem token_padded (h : t < x.tLen) :
    (x.padded.scaled sqrt).token exp t = (x.scaled sqrt).token exp t := by
  simp only [GdnHead.token, GdnHead.scaled, GdnHead.padded, if_pos h]

omit hadd in
theorem state_padded (n : ℕ) : state x.dk ((x.padded.scaled sqrt).token exp) S (x.tLen + n) =
    state x.dk ((x.scaled sqrt).token exp) S x.tLen := by
  rw [state_neutral x.tLen, state_congr_run fun i hi => token_padded hi]
  · exact fun i hi d => if_neg (Nat.not_lt.mpr hi)
  · intro i hi d
    show exp (if i < x.tLen then x.g i else 0) = 1
    rw [if_neg (Nat.not_lt.mpr hi), hzero]

theorem chunkHead_out (hc : 0 < chunkSize) (ht : t < x.tLen) (e : ℕ) :
    (chunkHead exp sqrt chunkSize x S).1 t e = out x.dk ((x.scaled sqrt).token exp) S t e := by
  obtain ⟨hout, -⟩ := chunk_rounds (x := x.padded.scaled sqrt) (S := S) hzero hadd hc
    ((x.tLen + padSize chunkSize x.tLen) / chunkSize)
  have hchunk : t / chunkSize < (x.tLen + padSize chunkSize x.tLen) / chunkSize := by
    rw [Nat.div_lt_iff_lt_mul hc, total_div_mul hc]
    omega
  show (List.foldl (chunkLoop exp chunkSize (x.padded.scaled sqrt)) _ _).1 _ _ _ = _
  rw [hout _ hchunk _ (Nat.mod_lt t hc) e, Nat.mul_comm, Nat.div_add_mod]
  exact congrFun (out_congr_run fun i hi => token_padded (by omega)) e

theorem chunkHead_state (hc : 0 < chunkSize) :
    (chunkHead exp sqrt chunkSize x S).2 = state x.dk ((x.scaled sqrt).token exp) S x.tLen := by
  obtain ⟨-, hstate⟩ := chunk_rounds (x := x.padded.scaled sqrt) (S := S) hzero hadd hc
    ((x.tLen + padSize chunkSize x.tLen) / chunkSize)
  show (List.foldl (chunkLoop exp chunkSize (x.padded.scaled sqrt)) _ _).2 = _
  rw [hstate, total_div_mul hc]
  show state x.dk ((x.padded.scaled sqrt).token exp) S _ = _
  rw [state_padded hzero]

end Chunk

/-- The rule in chunks computes what the rule token by token does, for every chunk size. -/
theorem chunkGatedDeltaRule_eq (exp sqrt : R → R) (hzero : exp 0 = 1)
    (hadd : ∀ a b, exp (a + b) = exp a * exp b)
    (chunkSize : ℕ) (hc : 0 < chunkSize) (x : GdnInput R)
    (initialState : Option (ℕ → ℕ → ℕ → ℕ → R)) (useQkL2norm : Bool) :
    (∀ b t h e, t < x.tLen → (chunkGatedDeltaRule exp sqrt chunkSize x initialState useQkL2norm).1 b
      t h e = (recurrentGatedDeltaRule exp sqrt x initialState useQkL2norm).1 b t h e) ∧
      (chunkGatedDeltaRule exp sqrt chunkSize x initialState useQkL2norm).2 =
        (recurrentGatedDeltaRule exp sqrt x initialState useQkL2norm).2 := by
  constructor
  · intro b t h e ht
    have hlen : t < (x.head sqrt useQkL2norm b h).tLen := ht
    show (chunkHead exp sqrt chunkSize _ _).1 t e = (recurrentHead exp sqrt _ _).1 t e
    rw [chunkHead_out hzero hadd hc hlen, recurrentHead_eq]
    exact (if_pos hlen).symm
  · funext b h
    show (chunkHead exp sqrt chunkSize _ _).2 = (recurrentHead exp sqrt _ _).2
    rw [chunkHead_state hzero hadd hc, recurrentHead_eq]

/-- Seventy tokens, in two chunks. -/
theorem chunkGatedDeltaRule_eq_real :
    let x : GdnInput ℝ := ⟨70, 2, fun _ _ _ _ => 1, fun _ _ _ _ => 1, fun _ _ _ _ => 1, fun _ _ _ =>
        -1, fun _ _ _ => 1⟩
    (chunkGatedDeltaRule Real.exp Real.sqrt 64 x none true).2 =
      (recurrentGatedDeltaRule Real.exp Real.sqrt x none true).2 :=
  (chunkGatedDeltaRule_eq Real.exp Real.sqrt Real.exp_zero Real.exp_add 64 (by decide) _ none
    true).2

end FreeToken.GdnReference
