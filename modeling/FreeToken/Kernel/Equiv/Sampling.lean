import FreeToken.Kernel.Sampling
import Mathlib.Data.List.GetD
import Mathlib.Tactic.Linarith
import Mathlib.Tactic.Positivity

/-!
# The thresholds of the sampling kernels

`Row.tail w v` is the weight of the tokens whose bits are not below `v`: a count where the weights
are 1, a mass where they are the probabilities.  The bins of a round tell by how much it falls over
each of them (`falls_binned`), so that the four rounds search for the last bit pattern where it
reaches the target.

* `topkThreshold_eq`: the `k`-th greatest bits.
* `toppThreshold_spec`: the greatest bits that are kept, with enough mass from there on.
-/

namespace FreeToken

open List

variable {k start v : ℤ} {M : Type*} {target p above : ℚ} {i : ℕ} {w : ℕ → M}

namespace Sampling

variable {row : Row} {g : Grid} {r : Round} {lo : ℤ} {n bin : ℕ}

/-! ### Numbers -/

theorem units_lt_succ (b : ℕ) : units b < units (b + 1) := by
  unfold units
  by_cases hcarry : (b + 1) % 2 ^ 23 = 0
  · have hdiv : (b + 1) / 2 ^ 23 = b / 2 ^ 23 + 1 := by omega
    have hmod : b % 2 ^ 23 = 2 ^ 23 - 1 := by omega
    rw [hdiv, hcarry, hmod, if_neg (Nat.succ_ne_zero _), Nat.add_sub_cancel, Nat.add_zero]
    split
    · next hzero =>
      rw [hzero]
      decide
    · next hpos =>
      obtain ⟨e, he⟩ := Nat.exists_eq_succ_of_ne_zero hpos
      rw [he, Nat.succ_sub_one, pow_succ' (n := e)]
      have hpow := Nat.two_pow_pos e
      omega
  · have hdiv : (b + 1) / 2 ^ 23 = b / 2 ^ 23 := by omega
    have hmod : (b + 1) % 2 ^ 23 = b % 2 ^ 23 + 1 := by omega
    rw [hdiv, hmod]
    split
    · exact Nat.lt_succ_self _
    · exact mul_lt_mul_of_pos_right (by omega) (Nat.two_pow_pos _)

theorem units_strictMono : StrictMono units := strictMono_nat_of_lt_succ units_lt_succ

theorem ofBits_le_iff {a b : ℤ} (ha : 0 ≤ a) (hb : 0 ≤ b) : ofBits a ≤ ofBits b ↔ a ≤ b := by
  unfold ofBits
  rw [div_le_div_iff_of_pos_right (by positivity), Nat.cast_le, units_strictMono.le_iff_le]
  omega

theorem ofBits_nonneg (b : ℤ) : 0 ≤ ofBits b := div_nonneg (Nat.cast_nonneg _) (by positivity)

theorem prob_nonneg (i : ℕ) : 0 ≤ row.prob i := ofBits_nonneg (row.bits i)

theorem ofBits_zero : ofBits 0 = 0 := by
  unfold ofBits units
  norm_num

theorem prob_pos_iff (hi : i < row.size) : 0 < row.prob i ↔ 0 < row.bits i := by
  have hle := ofBits_le_iff (row.nonneg i hi) (Int.le_refl 0)
  rw [ofBits_zero] at hle
  unfold Row.prob
  rw [← not_le, hle, not_le]

/-! ### Sums over the programs of a row -/

theorem size_le_mul_chunk : row.size ≤ g.chunks * g.chunk row := by
  have hdiv := Nat.div_add_mod (row.size + g.chunks - 1) g.chunks
  have hmod := Nat.mod_lt (row.size + g.chunks - 1) g.chunks_pos
  unfold Grid.chunk
  omega

theorem sum_grid [AddCommMonoid M] (f : ℕ → M) :
    ∑ cta ∈ Finset.range g.chunks, ∑ c ∈
      Finset.range (trips (g.start row cta) (g.stop row cta) g.block),
      ∑ l ∈ Finset.range g.block, (if g.start row cta + c * g.block + l < g.stop row cta then
        f (g.start row cta + c * g.block + l) else 0) = ∑ i ∈ Finset.range row.size, f i := by
  have hchunk : ∀ cta, ∑ c ∈ Finset.range (trips (g.start row cta) (g.stop row cta) g.block),
      ∑ l ∈ Finset.range g.block, (if g.start row cta + c * g.block + l < g.stop row cta then
        f (g.start row cta + c * g.block + l) else 0) =
      ∑ i ∈ Finset.Ico (0 + cta * g.chunk row) (min (0 + cta * g.chunk row + g.chunk row) row.size),
        f i := fun cta => by
    rw [sum_trips g.block_pos, zero_add]
    rfl
  rw [Finset.sum_congr rfl fun cta _ => hchunk cta, sum_tiles, zero_add,
    min_eq_right size_le_mul_chunk, Nat.Ico_zero_eq_range]

/-! ### The bins of a round -/

section Bins

variable {M : Type*} [AddCommGroup M] {w : ℕ → M}

def Row.binned (row : Row) (w : ℕ → M) (r : Round) (lo : ℤ) (bin : ℕ) : M :=
  ∑ i ∈ Finset.range row.size, if r.inRange lo (row.bits i) true ∧ (row.bits i - lo) >>> r.shift =
    bin then w i else 0

/-- The weight of the tokens whose bits are not below. -/
def Row.tail (row : Row) (w : ℕ → M) (v : ℤ) : M :=
  ∑ i ∈ Finset.range row.size, if v ≤ row.bits i then w i else 0

/-- The lanes out of the bracket cancel. -/
theorem sum_countChunk (row : Row) (g : Grid) (r : Round) (lo : ℤ) (bin : ℕ) :
    ∑ cta ∈ Finset.range g.chunks, countChunk row g r lo cta bin = row.binned (fun _ => 1) r lo
      bin := by
  unfold Row.binned
  rw [← sum_grid (g := g)]
  refine Finset.sum_congr rfl fun cta _ => Finset.sum_congr rfl fun c _ => ?_
  dsimp only
  have hif : ∀ f : ℕ → ℤ, (if bin = 0 then ∑ l ∈ Finset.range g.block, f l else 0) =
      ∑ l ∈ Finset.range g.block, if bin = 0 then f l else 0 := fun f => by
    split
    · rfl
    · exact (Finset.sum_const_zero).symm
  rw [hif, ← Finset.sum_sub_distrib]
  refine Finset.sum_congr rfl fun l _ => ?_
  by_cases hmask : g.start row cta + c * g.block + l < g.stop row cta
  · simp only [hmask, decide_true, if_true]
    by_cases hin : r.inRange lo (row.bits (g.start row cta + c * g.block + l)) true = true
    · simp [hin]
    · simp only [hin, Bool.false_eq_true, if_false, false_and]
      by_cases hbin : bin = 0 <;> simp [hbin, eq_comm]
  · have hout : ∀ y, r.inRange lo y false = false := fun _ => rfl
    simp only [hmask, decide_false, hout, Bool.false_eq_true, if_false]
    by_cases hbin : bin = 0 <;> simp [hbin, eq_comm]

theorem sum_massChunk (row : Row) (g : Grid) (r : Round) (lo : ℤ) (bin : ℕ) :
    ∑ cta ∈ Finset.range g.chunks, massChunk row g r lo cta bin = row.binned row.prob r lo bin := by
  unfold Row.binned
  rw [← sum_grid (g := g)]
  refine Finset.sum_congr rfl fun cta _ => Finset.sum_congr rfl fun c _ =>
    Finset.sum_congr rfl fun l _ => ?_
  by_cases hmask : g.start row cta + c * g.block + l < g.stop row cta
  · simp only [hmask, decide_true, if_true]
    by_cases hin : r.inRange lo (row.bits (g.start row cta + c * g.block + l)) true = true
    · simp [hin, Row.prob]
    · simp [hin]
  · have hout : ∀ y, r.inRange lo y false = false := fun _ => rfl
    simp [hmask, hout]

theorem sum_keptChunk (row : Row) (g : Grid) {thr : ℤ} (hthr : 0 ≤ thr) :
    ∑ cta ∈ Finset.range g.chunks, keptChunk row g thr cta = row.tail row.prob thr := by
  refine (sum_grid fun i => if ofBits thr ≤ row.prob i then row.prob i else 0).trans
    (Finset.sum_congr rfl fun i hi => ?_)
  exact if_congr (ofBits_le_iff hthr (row.nonneg i (Finset.mem_range.mp hi))) rfl rfl

/-- The bins of the round are the first `n`. -/
def Row.Fits (row : Row) (r : Round) (lo : ℤ) (n : ℕ) : Prop :=
  r.width = n * 2 ^ r.shift ∨ r.width = 0 ∧ ∀ i < row.size, row.bits i < lo + n * 2 ^ r.shift

/-- Where a token is in the bins. -/
theorem Row.Fits.bin_iff (h : row.Fits r lo n) (hn : 0 < n) (hi : i < row.size) :
    (r.inRange lo (row.bits i) true = true ∧ (row.bits i - lo) >>> r.shift = (bin : ℤ)) ↔
      bin < n ∧ lo + bin * 2 ^ r.shift ≤ row.bits i ∧ row.bits i < lo + (bin + 1) *
        2 ^ r.shift := by
  have hs : (0 : ℤ) < 2 ^ r.shift := by positivity
  have hwide : (0 : ℤ) < n * 2 ^ r.shift := Int.mul_pos (by omega) hs
  have hfinite := row.finite i hi
  have hshift : (row.bits i - lo) >>> r.shift = (bin : ℤ) ↔
      bin * 2 ^ r.shift ≤ row.bits i - lo ∧ row.bits i - lo < (bin + 1) * 2 ^ r.shift := by
    rw [Int.shiftRight_eq_div_pow, ← Int.le_ediv_iff_mul_le hs, ← Int.ediv_lt_iff_lt_mul hs]
    push_cast
    omega
  have hrange :
      r.inRange lo (row.bits i) true = true ↔ lo ≤ row.bits i ∧
      row.bits i < lo + n * 2 ^ r.shift := by
    unfold Round.inRange
    rcases h with hwidth | ⟨hwidth, hall⟩
    · simp only [Bool.true_and, Bool.and_eq_true, Bool.or_eq_true, decide_eq_true_eq, hwidth]
      omega
    · have hlt := hall i hi
      simp only [Bool.true_and, Bool.and_eq_true, Bool.or_eq_true, decide_eq_true_eq, hwidth,
        true_or, and_true]
      omega
  rw [hrange, hshift]
  constructor
  · rintro ⟨⟨-, hlt⟩, hbelow, habove⟩
    have hbin : (bin : ℤ) * 2 ^ r.shift < n * 2 ^ r.shift := by omega
    have hbin' := lt_of_mul_lt_mul_right hbin hs.le
    omega
  · rintro ⟨hbin, hbelow, habove⟩
    have hnonneg : (0 : ℤ) ≤ bin * 2 ^ r.shift := by positivity
    have hle : ((bin : ℤ) + 1) * 2 ^ r.shift ≤ n * 2 ^ r.shift :=
      Int.mul_le_mul_of_nonneg_right (by omega) hs.le
    omega

/-- **The bins tell of the falls.** -/
theorem Row.Fits.falls (h : row.Fits r lo n) (hn : 0 < n) (w : ℕ → M) (bins : ℕ) :
    Falls (row.tail w) lo (2 ^ r.shift) n (row.binned w r lo) bins := by
  have hs : (0 : ℤ) < 2 ^ r.shift := by positivity
  intro j _
  unfold Row.binned
  split
  · next hj =>
    unfold Row.tail
    rw [← Finset.sum_sub_distrib]
    refine Finset.sum_congr rfl fun i hi => ?_
    rw [if_congr (h.bin_iff hn (Finset.mem_range.mp hi)) rfl rfl]
    by_cases hlow : lo + j * 2 ^ r.shift ≤ row.bits i
    · by_cases hhigh : lo + (j + 1) * 2 ^ r.shift ≤ row.bits i
      · rw [if_neg (by omega), if_pos hlow, if_pos hhigh, sub_self]
      · rw [if_pos (by omega), if_pos hlow, if_neg hhigh, sub_zero]
    · have hhigh : ¬ lo + (j + 1) * 2 ^ r.shift ≤ row.bits i := by
        rw [Int.add_mul, Int.one_mul]
        omega
      rw [if_neg (by omega), if_neg hlow, if_neg hhigh, sub_self]
  · next hj =>
    refine Finset.sum_eq_zero fun i hi => ?_
    rw [if_congr (h.bin_iff hn (Finset.mem_range.mp hi)) rfl rfl, if_neg (by omega)]

end Bins

/-! ### Four rounds -/

theorem sum_prefix [AddCommMonoid M] (h : ℕ → M) {bins j : ℕ} (hj : j < bins) :
    ∑ jj ∈ Finset.range bins, (if (jj : ℤ) ≤ j then h jj else 0) = ∑ jj ∈ Finset.range (j + 1), h
      jj := by
  rw [← Finset.sum_filter]
  refine Finset.sum_congr (Finset.ext fun jj => ?_) fun _ _ => rfl
  rw [Finset.mem_filter, Finset.mem_range, Finset.mem_range]
  omega

theorem tail_antitone [AddCommGroup M] [PartialOrder M] [IsOrderedAddMonoid M]
    (hw : ∀ i, 0 ≤ w i) : Antitone (row.tail w) := by
  intro a b hab
  refine Finset.sum_le_sum fun i _ => ?_
  split
  · rw [if_pos (by omega)]
  · split
    · exact hw i
    · exact le_refl 0

theorem tail_nonneg [AddCommGroup M] [PartialOrder M] [IsOrderedAddMonoid M]
    (hw : ∀ i, 0 ≤ w i) (v : ℤ) : 0 ≤ row.tail w v := by
  refine Finset.sum_nonneg fun i _ => ?_
  split
  · exact hw i
  · exact le_refl 0

theorem tail_eq_zero [AddCommGroup M] (w : ℕ → M) (hv : infBits ≤ v) : row.tail w v = 0 :=
  Finset.sum_eq_zero fun i hi =>
    if_neg (by have hlt := row.finite i (Finset.mem_range.mp hi); omega)

/-- The number of tokens whose bits are not below. -/
def Row.count (row : Row) : ℤ → ℤ := row.tail fun _ => 1

/-- The mass of the tokens whose bits are not below. -/
def Row.mass (row : Row) : ℤ → ℚ := row.tail row.prob

theorem count_antitone : Antitone row.count := tail_antitone fun _ => Int.one_nonneg

theorem mass_antitone : Antitone row.mass := tail_antitone prob_nonneg

/-- A round of counts, in a bracket that the target is crossed in. -/
theorem Bracket.bitsRound {above : ℤ} (h : Bracket row.count k lo (n * 2 ^ r.shift) above)
    (hfits : row.Fits r lo n) (hn : 0 < n) (hbins : n ≤ bins) :
    lo ≤ (bitsRound row g k (lo, above) r).1 ∧
      Bracket row.count k (bitsRound row g k (lo, above) r).1 (2 ^ r.shift)
        (bitsRound row g k (lo, above) r).2 := by
  obtain ⟨j, hj, hlast, hnext⟩ := h.narrow (hfits.falls hn _ bins) hbins
  have hpos : (0 : ℤ) ≤ j * 2 ^ r.shift := by positivity
  unfold Sampling.bitsRound
  simp only [sum_countChunk, hlast, sum_prefix _ (lt_of_lt_of_le hj hbins), Int.shiftLeft_eq]
  rw [if_pos (Int.natCast_nonneg j)]
  exact ⟨Int.le_add_of_nonneg_right hpos, hnext⟩

theorem Bracket.pmassRound (h : Bracket row.mass target lo (n * 2 ^ r.shift) above)
    (hfits : row.Fits r lo n) (hn : 0 < n) (hbins : n ≤ bins) :
    lo ≤ (pmassRound row g target (lo, above) r).1 ∧
      Bracket row.mass target (pmassRound row g target (lo, above) r).1 (2 ^ r.shift)
        (pmassRound row g target (lo, above) r).2 := by
  obtain ⟨j, hj, hlast, hnext⟩ := h.narrow (hfits.falls hn _ bins) hbins
  have hpos : (0 : ℤ) ≤ j * 2 ^ r.shift := by positivity
  unfold Sampling.pmassRound
  simp only [sum_massChunk, hlast, max_eq_left (Int.natCast_nonneg j),
    sum_prefix _ (lt_of_lt_of_le hj hbins), Int.shiftLeft_eq]
  exact ⟨Int.le_add_of_nonneg_right hpos, hnext⟩

theorem bitsRound_of_lt (hlow : row.count 0 < k) (hfits : row.Fits r 0 n) (hn : 0 < n)
    (hbins : n ≤ bins) :
    bitsRound row g k (0, 0) r = (0, 0) := by
  have hnonneg : 0 ≤ row.count (0 + n * 2 ^ r.shift) := tail_nonneg (fun _ => Int.one_nonneg) _
  have hnone := (hfits.falls hn (fun _ => (1 : ℤ)) bins).lastWhere_eq_neg_one count_antitone
    (by positivity) hbins hlow hnonneg
  unfold bitsRound
  simp only [sum_countChunk, hnone]
  exact if_neg (by decide)

theorem pmassRound_of_lt (hlow : row.mass lo < target)
    (habove : above ≤ row.mass (lo + n * 2 ^ r.shift))
    (hfits : row.Fits r lo n) (hn : 0 < n) (hbins : n ≤ bins) :
    (pmassRound row g target (lo, above) r).1 = lo ∧
      (pmassRound row g target (lo, above) r).2 ≤ row.mass (lo + 2 ^ r.shift) := by
  have hfalls := hfits.falls hn row.prob bins
  have hnone := hfalls.lastWhere_eq_neg_one mass_antitone (by positivity) hbins hlow habove
  have hfirst := hfalls.sum_range hbins (Nat.succ_le_of_lt hn)
  unfold pmassRound
  simp only [sum_massChunk, hnone, Int.shiftLeft_eq]
  refine ⟨by simp, ?_⟩
  have hkept :
      ∑ jj ∈ Finset.range bins, (if (jj : ℤ) ≤ max (-1) 0 then row.binned row.prob r lo jj else 0) =
      row.mass lo - row.mass (lo + 2 ^ r.shift) := by
    have hzero := sum_prefix (row.binned row.prob r lo) (show 0 < bins by decide)
    rw [Nat.cast_zero] at hzero
    refine hzero.trans (hfirst.trans ?_)
    rw [Nat.succ_eq_add_one, Nat.cast_add, Nat.cast_zero, Nat.cast_one, Int.zero_add, Int.one_mul]
    rfl
  rw [hkept, hfalls.sum_all hbins]
  change above + (row.mass lo - row.mass (lo + n * 2 ^ r.shift)) -
    (row.mass lo - row.mass (lo + 2 ^ r.shift)) ≤ _
  linarith

/-- The round is one of the four, with this many bins. -/
def Round.HasBins (r : Round) (n : ℕ) : Prop :=
  0 < n ∧ n ≤ bins ∧ (r.width = n * 2 ^ r.shift ∨ r.width = 0 ∧ (n : ℤ) * 2 ^ r.shift = 2 ^ 31)

theorem Round.HasBins.fits (h : r.HasBins n) (hlo : 0 ≤ lo) : row.Fits r lo n := by
  refine h.2.2.imp_right fun hwide => ⟨hwide.1, fun i hi => ?_⟩
  have hlt := row.finite i hi
  have hinf : infBits < 2 ^ 31 := by decide
  rw [hwide.2]
  omega

/-- What each round keeps while it cuts the bracket, the four rounds keep. -/
theorem foldl_rounds {σ : Type*} {f : σ → Round → σ} {P : ℤ → σ → Prop} {s : σ} (hs : P (2 ^ 31) s)
    (hstep : ∀ s r (n : ℕ), r.HasBins n → P (n * 2 ^ r.shift) s → P (2 ^ r.shift) (f s r)) :
    P 1 (rounds.foldl f s) := by
  have h₁ := hstep s ⟨23, 0⟩ 256 ⟨by decide, by decide, .inr ⟨rfl, by norm_num⟩⟩
    (by norm_num at hs ⊢; exact hs)
  have h₂ := hstep _ ⟨15, 1 <<< 23⟩ 256 ⟨by decide, by decide, .inl (by norm_num; rfl)⟩
    (by norm_num at h₁ ⊢; exact h₁)
  have h₃ := hstep _ ⟨7, 1 <<< 15⟩ 256 ⟨by decide, by decide, .inl (by norm_num; rfl)⟩
    (by norm_num at h₂ ⊢; exact h₂)
  have h₄ := hstep _ ⟨0, 1 <<< 7⟩ 128 ⟨by decide, by decide, .inl (by norm_num; rfl)⟩
    (by norm_num at h₃ ⊢; exact h₃)
  rw [pow_zero] at h₄
  exact h₄

/-! ### The top-k threshold -/

theorem tail_zero [AddCommGroup M] (w : ℕ → M) : row.tail w 0 = ∑ i ∈ Finset.range row.size, w i :=
  Finset.sum_congr rfl fun i hi => if_pos (row.nonneg i (Finset.mem_range.mp hi))

theorem count_zero : row.count 0 = row.size := by
  unfold Row.count
  rw [tail_zero, Finset.sum_const, Finset.card_range, nsmul_one]

theorem le_count_iff (hk : 1 ≤ k) (hsize : k ≤ row.size) (v : ℤ) :
    k ≤ row.count v ↔ v ≤ topkThreshold row g k := by
  have hbracket := foldl_rounds (f := bitsRound row g k) (s := (0, 0))
    (P := fun width state => 0 ≤ state.1 ∧ Bracket row.count k state.1 width state.2)
    ⟨Int.le_refl 0, by rwa [count_zero], (tail_eq_zero _ (by decide)).symm, by omega⟩
    fun state r n hbins h => by
      have hnext := Bracket.bitsRound (g := g) h.2 (hbins.fits h.1) hbins.1 hbins.2.1
      exact ⟨h.1.trans hnext.1, hnext.2⟩
  unfold topkThreshold
  rw [max_eq_left hk]
  exact hbracket.2.last count_antitone v

theorem topkThreshold_of_lt (hsize : row.size < k) : topkThreshold row g k = 0 := by
  have hstay := foldl_rounds (f := bitsRound row g (max k 1)) (s := (0, 0))
    (P := fun _ state => state = (0, 0)) rfl fun state r n hbins h => by
      rw [h]
      exact bitsRound_of_lt (by rw [count_zero]; omega) (hbins.fits (Int.le_refl 0)) hbins.1
        hbins.2.1
  unfold topkThreshold
  rw [hstay]

theorem topkThreshold_nonneg (hk : 1 ≤ k) : 0 ≤ topkThreshold row g k := by
  by_cases hsize : k ≤ row.size
  · rw [← le_count_iff hk hsize, count_zero]
    exact hsize
  · rw [topkThreshold_of_lt (by omega)]

def Row.sorted (row : Row) : List ℤ := ((range row.size).map row.bits).mergeSort fun a b => b ≤ a

/-- The `k`-th greatest bits, and 0 where there are none. -/
def Row.kthGreatest (row : Row) (k : ℤ) : ℤ := row.sorted.getD (k - 1).toNat 0

theorem sorted_pairwise : row.sorted.Pairwise fun a b => b ≤ a := by
  have h :=
    @pairwise_mergeSort ℤ (fun a b => decide (b ≤ a)) (fun a b c hab hbc => by simp at *; omega)
    (fun a b => by simp; omega) ((range row.size).map row.bits)
  exact h.imp fun h => of_decide_eq_true h

theorem length_sorted : row.sorted.length = row.size := by
  unfold Row.sorted
  rw [length_mergeSort, length_map, length_range]

theorem count_eq_countP (v : ℤ) : row.count v = row.sorted.countP fun b => v ≤ b := by
  have hperm :
      row.sorted.countP (fun b => decide (v ≤ b)) = ((range row.size).map row.bits).countP fun b =>
      v ≤ b :=
    (mergeSort_perm _ _).countP_eq _
  rw [hperm, countP_map]
  unfold Row.count Row.tail
  induction row.size with
  | zero => rfl
  | succ n ih =>
    rw [Finset.sum_range_succ, ih, range_succ, countP_append, countP_singleton, Nat.cast_add]
    congr 1
    by_cases h : v ≤ row.bits n <;> simp [h]

/-- In descending order, the elements up to an index are not below the one there, and those from it
on are not above. -/
theorem countP_of_sorted {l : List ℤ} (hl : l.Pairwise fun a b => b ≤ a) (hi : i < l.length) :
    i + 1 ≤ l.countP (fun b => l[i] ≤ b) ∧ l.countP (fun b => l[i] + 1 ≤ b) ≤ i := by
  induction l generalizing i with
  | nil => exact absurd hi (Nat.not_lt_zero i)
  | cons a l ih =>
    obtain ⟨hhead, htail⟩ := pairwise_cons.mp hl
    rw [countP_cons, countP_cons]
    cases i with
    | zero =>
      have hnone : l.countP (fun b => a + 1 ≤ b) = 0 := countP_eq_zero.mpr fun b hb => by
        have hle := hhead b hb
        rw [decide_eq_true_eq]
        omega
      rw [getElem_cons_zero, hnone, decide_eq_true (Int.le_refl a), decide_eq_false (by omega)]
      exact ⟨Nat.le_add_left 1 _, Nat.le_refl 0⟩
    | succ i =>
      have hi' : i < l.length := Nat.lt_of_succ_lt_succ hi
      have hle := hhead l[i] (getElem_mem hi')
      obtain ⟨hmany, hfew⟩ := ih htail hi'
      rw [getElem_cons_succ, decide_eq_true hle]
      refine ⟨Nat.succ_le_succ hmany, ?_⟩
      split <;> omega

/-- **The top-k threshold is the `k`-th greatest value.** -/
theorem topkThreshold_eq (hk : 1 ≤ k) : topkThreshold row g k = row.kthGreatest k := by
  unfold Row.kthGreatest
  by_cases hsize : k ≤ row.size
  · have hi : (k - 1).toNat < row.sorted.length := by
      rw [length_sorted]
      omega
    obtain ⟨hmany, hfew⟩ := countP_of_sorted sorted_pairwise hi
    rw [getD_eq_getElem _ _ hi]
    have hreach := (le_count_iff (g := g) hk hsize row.sorted[(k - 1).toNat]).mp
      (by rw [count_eq_countP]; omega)
    have hnext := mt (le_count_iff (g := g) hk hsize (row.sorted[(k - 1).toNat] + 1)).mpr
      (by rw [count_eq_countP]; omega)
    omega
  · rw [topkThreshold_of_lt (by omega), getD_eq_default]
    rw [length_sorted]
    omega

/-! ### The top-p threshold -/

/-- The four rounds of masses find the last place with that much mass from there on. -/
theorem le_mass_iff (hstart : 0 ≤ start) (hpos : 0 < target) (hmass : target ≤ row.mass start)
    (v : ℤ) :
    target ≤ row.mass v ↔ v ≤ (rounds.foldl (pmassRound row g target) (start, 0)).1 := by
  have hbracket := foldl_rounds (f := pmassRound row g target) (s := (start, 0))
    (P := fun width state => 0 ≤ state.1 ∧ Bracket row.mass target state.1 width state.2)
    ⟨hstart, hmass, (tail_eq_zero _ (by have hinf : infBits < 2 ^ 31 := by decide
                                        omega)).symm, hpos⟩
    fun state r n hbins h => by
      have hnext := Bracket.pmassRound (g := g) h.2 (hbins.fits h.1) hbins.1 hbins.2.1
      exact ⟨h.1.trans hnext.1, hnext.2⟩
  exact hbracket.2.last mass_antitone v

theorem foldl_pmassRound_of_lt (hstart : 0 ≤ start) (hmass : row.mass start < target) :
    (rounds.foldl (pmassRound row g target) (start, 0)).1 = start := by
  have hstay := foldl_rounds (f := pmassRound row g target) (s := (start, 0))
    (P := fun width state => state.1 = start ∧ state.2 ≤ row.mass (start + width))
    ⟨rfl, tail_nonneg (prob_nonneg) _⟩
    fun state r n hbins h => by
      obtain ⟨lo, above⟩ := state
      obtain ⟨hlo, habove⟩ := h
      dsimp only at hlo habove
      subst hlo
      exact pmassRound_of_lt hmass habove (hbins.fits hstart) hbins.1 hbins.2.1
  exact hstay.1

/-- The greatest bits from `start` on, among those of the row, with that much mass from there on. -/
def Row.IsCrossing (row : Row) (start : ℤ) (target : ℚ) (v : ℤ) : Prop :=
  IsGreatest {v | (∃ i < row.size, row.bits i = v) ∧ start ≤ v ∧ target ≤ row.mass v} v

theorem isCrossing_of_le_iff (hmass : target ≤ row.mass start)
    (hv : ∀ w, target ≤ row.mass w ↔ w ≤ v) : row.IsCrossing start target v := by
  refine ⟨⟨?_, (hv start).mp hmass, (hv v).mpr (Int.le_refl v)⟩, fun w hw => (hv w).mp hw.2.2⟩
  by_contra hnone
  push Not at hnone
  -- without a token there, the mass would be the same one further on
  have hsame : row.mass (v + 1) = row.mass v := by
    unfold Row.mass Row.tail
    refine Finset.sum_congr rfl fun i hi => ?_
    have hne := hnone i (Finset.mem_range.mp hi)
    exact if_congr (by omega) rfl rfl
  have hnext := (hv (v + 1)).mp (hsame ▸ (hv v).mpr (Int.le_refl v))
  omega

/-- Some token from there on has mass. -/
theorem mass_pos_iff : 0 < row.mass v ↔ ∃ i < row.size, v ≤ row.bits i ∧ 0 < row.prob i := by
  unfold Row.mass Row.tail
  rw [← Finset.sum_filter, Finset.sum_pos_iff_of_nonneg fun i _ => prob_nonneg i]
  simp only [Finset.mem_filter, Finset.mem_range, and_assoc]

theorem mass_topkThreshold_pos (hk : 1 ≤ k) (hmass : 0 < row.mass 0) :
    0 < row.mass (topkThreshold row g k) := by
  obtain ⟨i, hi, hbits, hprob⟩ := mass_pos_iff.mp hmass
  by_cases hkept : topkThreshold row g k ≤ row.bits i
  · exact mass_pos_iff.mpr ⟨i, hi, hkept, hprob⟩
  by_cases hsize : k ≤ row.size
  · -- the threshold is above a token with mass, and some token reaches it
    have hcount := (le_count_iff hk hsize _).mpr (Int.le_refl (topkThreshold row g k))
    have hpos : 0 < row.count (topkThreshold row g k) := by omega
    unfold Row.count Row.tail at hpos
    rw [← Finset.sum_filter, Finset.sum_pos_iff_of_nonneg fun _ _ => Int.one_nonneg] at hpos
    obtain ⟨j, hj, -⟩ := hpos
    obtain ⟨hj, hreach⟩ := Finset.mem_filter.mp hj
    exact mass_pos_iff.mpr
      ⟨j, Finset.mem_range.mp hj, hreach, (prob_pos_iff (Finset.mem_range.mp hj)).mpr (by omega)⟩
  · rw [topkThreshold_of_lt (by omega)] at hkept
    exact absurd hbits hkept

/-- **The top-p threshold inside a top-k.** -/
theorem toppThreshold_some (hk : 1 ≤ k) (hp : 0 < p) (hp' : p ≤ 1) (hmass : 0 < row.mass 0) :
    row.IsCrossing (row.kthGreatest k) (p * row.mass (row.kthGreatest k))
      (toppThreshold row g (some k) p) := by
  have hpos := mass_topkThreshold_pos (g := g) hk hmass
  have hstart : 0 ≤ topkThreshold row g k := topkThreshold_nonneg hk
  rw [topkThreshold_eq hk] at hpos hstart
  have hle : p * row.mass (row.kthGreatest k) ≤ row.mass (row.kthGreatest k) :=
    mul_le_of_le_one_left hpos.le hp'
  unfold toppThreshold
  dsimp only
  rw [topkThreshold_eq hk, sum_keptChunk row g hstart]
  exact isCrossing_of_le_iff hle (le_mass_iff hstart (mul_pos hp hpos) hle)

/-- **The top-p threshold without a top-k** takes the mass of the row for 1. -/
theorem toppThreshold_none (hp : 0 < p) (hmass : p ≤ row.mass 0) :
    row.IsCrossing 0 p (toppThreshold row g none p) :=
  isCrossing_of_le_iff hmass (le_mass_iff (Int.le_refl 0) hp hmass)

theorem toppThreshold_none_of_lt (hmass : row.mass 0 < p) : toppThreshold row g none p = 0 :=
  foldl_pmassRound_of_lt (Int.le_refl 0) hmass

end Sampling

end FreeToken
