import FreeToken.Kernel.Qsa.Topk
import FreeToken.Lib.RadixSelect

/-!
# The radix select of the kernels finds a threshold

`selectRange` goes through the digits of the keys.  What it knows between two passes is `Searching`:
the bits of `start` from a shift on, `keep` to match them, and that the winner asked for is in the
range (`Locates`).

* `laneSum_histogram`: a prefix sum of the histogram counts the keys with a lesser digit.
* `Searching.narrow`: one pass.
* `selectRange_isThreshold`: all of them.
-/

namespace FreeToken.QsaTopk

open List

variable {n s k b : ℕ} {key : ℕ → Key} {r : KeyRange} {kEff : ℤ}

/-! ### Bits -/

def keyValue (key : ℕ → Key) (i : ℕ) : ℕ := (key i).toNat

def liveLanes (n : ℕ) (key : ℕ → Key) : List ℕ := (range n).filter fun i => key i ≠ 0#32

theorem digit_eq (x : Key) (s : ℕ) : digit x s = x.toNat / 2 ^ s % 2 ^ radix := by
  unfold digit
  rw [BitVec.toNat_and, BitVec.toNat_ushiftRight, BitVec.toNat_ofNat, Nat.shiftRight_eq_div_pow]
  exact Nat.and_two_pow_sub_one_eq_mod _ radix

theorem keep_succ (s : ℕ) :
    (BitVec.allOnes 32 <<< (s + radix)) ||| (BitVec.ofNat 32 (bins - 1) <<< s) =
    BitVec.allOnes 32 <<< s := by
  apply BitVec.eq_of_getLsbD_eq
  intro i hi
  simp only [BitVec.getLsbD_or, BitVec.getLsbD_shiftLeft, BitVec.getLsbD_allOnes,
    BitVec.getLsbD_ofNat]
  have hbit : (bins - 1).testBit (i - s) = decide (i - s < radix) :=
    Nat.testBit_two_pow_sub_one radix (i - s)
  rw [hbit, Bool.eq_iff_iff]
  simp only [Bool.or_eq_true, Bool.and_eq_true, Bool.not_eq_true', decide_eq_true_eq,
    decide_eq_false_iff_not]
  omega

theorem toNat_and_keep (x : Key) (s : ℕ) :
    (x &&& BitVec.allOnes 32 <<< s).toNat = x.toNat / 2 ^ s * 2 ^ s := by
  have hbits : x &&& BitVec.allOnes 32 <<< s = (x >>> s) <<< s := by
    apply BitVec.eq_of_getLsbD_eq
    intro i hi
    simp only [BitVec.getLsbD_and, BitVec.getLsbD_shiftLeft, BitVec.getLsbD_allOnes,
      BitVec.getLsbD_ushiftRight]
    by_cases his : i < s
    · simp [his]
    · have hi' : i - s < 32 := by omega
      have heq : s + (i - s) = i := by omega
      simp [his, hi, hi', heq]
  rw [hbits, BitVec.toNat_shiftLeft, BitVec.toNat_ushiftRight, Nat.shiftRight_eq_div_pow,
    Nat.shiftLeft_eq]
  apply Nat.mod_eq_of_lt
  exact lt_of_le_of_lt (Nat.div_mul_le_self _ _) x.isLt

/-! ### What is known between two passes -/

/-- The bits from `s` on are fixed: there are no others in `start`, and `keep` asks for them. -/
structure KeyRange.Pins (r : KeyRange) (s q : ℕ) : Prop where
  start : r.start.toNat = q * 2 ^ s
  keep : r.keep = BitVec.allOnes 32 <<< s

/-- The keys of a range are those with its quotient. -/
theorem KeyRange.Pins.match_iff {q : ℕ} (h : r.Pins s q) (x : Key) :
    x &&& r.keep = r.start ↔ x.toNat / 2 ^ s = q := by
  rw [← BitVec.toNat_inj, h.keep, toNat_and_keep, h.start]
  constructor
  · exact Nat.eq_of_mul_eq_mul_right (Nat.two_pow_pos s)
  · rintro rfl
    rfl

/-- A search for `k` winners that has fixed the bits from `s` on. -/
def Searching (n : ℕ) (key : ℕ → Key) (k : ℕ) (r : KeyRange) (s : ℕ) : Prop :=
  ∃ q m : ℕ, r.Pins s q ∧ r.kRem = m ∧ Locates (keyValue key) (liveLanes n key) k s q m

theorem searching_start (hk : 0 < k) : Searching n key k { kRem := k } (radix * passes) := by
  have hkeep : 0#32 = BitVec.allOnes 32 <<< (radix * passes) := by decide
  refine ⟨0, k, ⟨rfl, hkeep⟩, rfl, Locates.start hk ?_⟩
  intro i _
  exact (key i).isLt.trans_le (Nat.pow_le_pow_right (by decide) (by decide))

/-! ### One pass -/

theorem histogram_eq {q : ℕ} (h : r.Pins (s + radix) q) (b : ℕ) :
    histogram n key r s b = (liveLanes n key).countP fun i =>
      keyValue key i / 2 ^ (s + radix) = q ∧ keyValue key i / 2 ^ s % 2 ^ radix = b := by
  unfold histogram liveLanes
  rw [laneSum_maskInt, countP_filter, countP_eq_length_filter]
  congr 2
  apply filter_congr
  intro i _
  rw [Bool.eq_iff_iff]
  simp only [Bool.and_eq_true, decide_eq_true_eq, h.match_iff, digit_eq]
  unfold keyValue
  tauto

/-- The prefix sums count the keys of the range with a lesser digit. -/
theorem laneSum_histogram {q : ℕ} (h : r.Pins (s + radix) q) (b : ℕ) :
    laneSum b (histogram n key r s) = (liveLanes n key).countP fun i =>
      keyValue key i / 2 ^ (s + radix) = q ∧ keyValue key i / 2 ^ s % 2 ^ radix < b := by
  induction b with
  | zero =>
    symm
    rw [show laneSum 0 (histogram n key r s) = ((0 : ℕ) : ℤ) from rfl, Int.natCast_inj,
      countP_eq_zero]
    intro i _
    simp
  | succ b ih =>
    rw [laneSum_succ, ih, histogram_eq h, ← Int.natCast_add, Int.natCast_inj]
    symm
    apply countP_eq_add
    · intro i _
      simp only [decide_eq_true_eq]
      omega
    · intro i _ hi
      have hlt := (of_decide_eq_true hi).2
      exact decide_eq_false fun h => absurd h.2 hlt.ne

theorem above_eq {q : ℕ} (h : r.Pins (s + radix) q) (b : ℕ) :
    laneSum bins (histogram n key r s) - laneCumsum (histogram n key r s) b =
      (liveLanes n key).countP fun i =>
        keyValue key i / 2 ^ (s + radix) = q ∧ b < keyValue key i / 2 ^ s % 2 ^ radix := by
  rw [laneCumsum, laneSum_histogram h, laneSum_histogram h]
  have hsplit : ((liveLanes n key).countP fun i =>
      keyValue key i / 2 ^ (s + radix) = q ∧ keyValue key i / 2 ^ s % 2 ^ radix < bins) =
      ((liveLanes n key).countP fun i =>
        keyValue key i / 2 ^ (s + radix) = q ∧ keyValue key i / 2 ^ s % 2 ^ radix < b + 1) +
        (liveLanes n key).countP fun i =>
          keyValue key i / 2 ^ (s + radix) = q ∧ b < keyValue key i / 2 ^ s % 2 ^ radix := by
    apply countP_eq_add
    · intro i _
      have hlt : keyValue key i / 2 ^ s % 2 ^ radix < bins := Nat.mod_lt _ (Nat.two_pow_pos radix)
      simp only [decide_eq_true_eq]
      omega
    · intro i _ hi
      have hlt := (of_decide_eq_true hi).2
      exact decide_eq_false fun h => absurd h.2 (by omega)
  rw [hsplit]
  push_cast
  omega

theorem least_bin {p : ℕ → Bool} (hn : 0 < n) (hlast : p (n - 1) = true) {c : ℕ → ℤ}
    (hc : ∀ i, c i = if p i then (i : ℤ) else (n : ℤ) - 1) :
    (c (laneArgmin c n)).toNat < n ∧ p (c (laneArgmin c n)).toNat = true ∧
      ∀ j < (c (laneArgmin c n)).toNat, p j = false := by
  obtain ⟨hlt, hleast⟩ := laneArgmin_spec (f := c) hn
  generalize laneArgmin c n = m at *
  have hle : ∀ j < n, c m ≤ c j := by
    intro j hj
    have h := hleast j hj
    omega
  by_cases hm : p m = true
  · have hcm : c m = m := by rw [hc, if_pos hm]
    rw [hcm, Int.toNat_natCast]
    refine ⟨hlt, hm, ?_⟩
    intro j hj
    rw [← Bool.not_eq_true]
    intro hpj
    have h := hle j (by omega)
    rw [hcm, hc, if_pos hpj] at h
    omega
  · have hcm : c m = n - 1 := by rw [hc, if_neg hm]
    have htoNat : (c m).toNat = n - 1 := by omega
    rw [htoNat]
    refine ⟨by omega, hlast, ?_⟩
    intro j hj
    rw [← Bool.not_eq_true]
    intro hpj
    have h := hle j (by omega)
    rw [hcm, hc, if_pos hpj] at h
    omega

theorem narrow_eq {hist : ℕ → ℤ} (hpos : 0 < r.kRem) :
    ∃ b < bins, laneSum bins hist - laneCumsum hist b < r.kRem ∧
      (∀ j < b, r.kRem ≤ laneSum bins hist - laneCumsum hist j) ∧
      narrow hist r s =
        { start := r.start ||| BitVec.ofNat 32 b <<< s
          keep := r.keep ||| BitVec.ofNat 32 (bins - 1) <<< s
          kRem := r.kRem - (laneSum bins hist - laneCumsum hist b)
          settled := r.kRem - (laneSum bins hist - laneCumsum hist b) = hist b } := by
  have hlast : laneSum bins hist - laneCumsum hist (bins - 1) < r.kRem := by
    rw [laneCumsum, show bins - 1 + 1 = bins from rfl]
    omega
  -- the row of candidates, as `narrow` writes it
  let c : ℕ → ℤ := fun bin =>
    if decide (laneSum bins hist - laneCumsum hist bin < r.kRem) then (bin : ℤ) else bins - 1
  obtain ⟨b, hbin, hb, hin, hbefore⟩ : ∃ b, (c (laneArgmin c bins)).toNat = b ∧ b < bins ∧
      decide (laneSum bins hist - laneCumsum hist b < r.kRem) = true ∧
      ∀ j < b, decide (laneSum bins hist - laneCumsum hist j < r.kRem) = false :=
    ⟨_, rfl, @least_bin bins (fun bin => laneSum bins hist - laneCumsum hist bin < r.kRem)
      (by decide) (decide_eq_true hlast) c fun _ => rfl⟩
  have hsum :
      ∀ f : ℕ → ℤ, (laneSum bins fun bin => if decide (bin = b) then f bin else 0) = f b := by
    intro f
    rw [laneSum_eq_single hb]
    · simp
    · intro i _ hib
      simp [hib]
  refine ⟨b, hb, of_decide_eq_true hin, fun j hj => ?_, ?_⟩
  · have h := of_decide_eq_false (hbefore j hj)
    omega
  · show KeyRange.mk (r.start ||| BitVec.ofNat 32 (c (laneArgmin c bins)).toNat <<< s) _
      (r.kRem - laneSum bins fun bin => if decide (bin = (c (laneArgmin c bins)).toNat) then _
        else 0)
      (decide (r.kRem -
        (laneSum bins fun bin => if decide (bin = (c (laneArgmin c bins)).toNat) then _ else 0) =
        laneSum bins fun bin => if decide (bin = (c (laneArgmin c bins)).toNat) then hist bin
          else 0)) = _
    rw [hbin, hsum, hsum]

theorem Searching.narrow (h : Searching n key k r (s + radix)) :
    Searching n key k (narrow (histogram n key r s) r s) s ∧
      ((QsaTopk.narrow (histogram n key r s) r s).settled = true →
        IsThreshold (keyValue key) (liveLanes n key) k
          (QsaTopk.narrow (histogram n key r s) r s).start.toNat k) := by
  obtain ⟨q, m, hpins, hm, hloc⟩ := h
  obtain ⟨b, hb, hin, hbefore, heq⟩ :=
    @narrow_eq s r (histogram n key r s) (by rw [hm]; exact_mod_cast hloc.pos)
  rw [heq]
  rw [above_eq hpins, hm] at hin
  -- the winners that the greater bins of the range hold
  obtain ⟨m', hm'⟩ := Nat.exists_eq_add_of_le (Int.ofNat_lt.mp hin).le
  have hfirst : b = 0 ∨ m ≤ (liveLanes n key).countP fun i =>
      keyValue key i / 2 ^ (s + radix) = q ∧ b ≤ keyValue key i / 2 ^ s % 2 ^ radix := by
    rcases eq_zero_or_pos b with hzero | hpos
    · exact Or.inl hzero
    · right
      have hprev := hbefore (b - 1) (by omega)
      rw [above_eq hpins, hm, Int.ofNat_le] at hprev
      apply hprev.trans
      apply countP_mono_left
      intro i _ hi
      have hi := of_decide_eq_true hi
      exact decide_eq_true ⟨hi.1, by omega⟩
  have hloc' : Locates (keyValue key) (liveLanes n key) k s (q * 2 ^ radix + b) m' :=
    hloc.digit hb hm'.symm (by omega) hfirst
  -- the digit fits: there is a key with it, or it is 0
  have hfits : (q * 2 ^ radix + b) * 2 ^ s < 2 ^ 32 := by
    rcases hloc'.inside with hzero | hle
    · rw [hzero, Nat.zero_mul]
      decide
    · have hsome := hloc'.pos.trans_le hle
      rw [countP_pos_iff] at hsome
      obtain ⟨i, _, hi⟩ := hsome
      rw [← of_decide_eq_true hi]
      exact lt_of_le_of_lt (Nat.div_mul_le_self _ _) (key i).isLt
  have hstart : (r.start ||| BitVec.ofNat 32 b <<< s).toNat = (q * 2 ^ radix + b) * 2 ^ s := by
    have hdigit : b * 2 ^ s < 2 ^ (s + radix) := by
      rw [pow_add, mul_comm]
      exact mul_lt_mul_of_pos_left hb (Nat.two_pow_pos s)
    have hor : q * 2 ^ (s + radix) ||| b * 2 ^ s = (q * 2 ^ radix + b) * 2 ^ s := by
      rw [mul_comm q, ← Nat.two_pow_add_eq_or_of_lt hdigit, pow_add, add_mul, mul_right_comm,
        mul_comm (2 ^ s * q), mul_comm (2 ^ s), ← mul_assoc, mul_comm (2 ^ radix) q]
    have hb' : b < 2 ^ 32 := hb.trans (by decide)
    rw [BitVec.toNat_or, BitVec.toNat_shiftLeft, BitVec.toNat_ofNat, Nat.mod_eq_of_lt hb',
      Nat.shiftLeft_eq, Nat.mod_eq_of_lt, hpins.start, hor]
    rw [add_mul] at hfits
    omega
  have hpins' : KeyRange.Pins
      { start := r.start ||| BitVec.ofNat 32 b <<< s
        keep := r.keep ||| BitVec.ofNat 32 (bins - 1) <<< s
        kRem := r.kRem - (laneSum bins (histogram n key r s) - laneCumsum (histogram n key r s) b)
        settled :=
          r.kRem - (laneSum bins (histogram n key r s) - laneCumsum (histogram n key r s) b) =
          histogram n key r s b } s (q * 2 ^ radix + b) := by
    refine ⟨hstart, ?_⟩
    show r.keep ||| _ = _
    rw [hpins.keep, keep_succ]
  have hrem :
      r.kRem - (laneSum bins (histogram n key r s) - laneCumsum (histogram n key r s) b) =
      (m' : ℤ) := by
    rw [above_eq hpins, hm]
    omega
  refine ⟨⟨_, m', hpins', hrem, hloc'⟩, fun hsettled => ?_⟩
  show IsThreshold _ _ k (r.start ||| BitVec.ofNat 32 b <<< s).toNat k
  rw [hstart]
  apply hloc'.isThreshold_of_settled
  have hbin := of_decide_eq_true hsettled
  rw [hrem, histogram_eq hpins, Int.natCast_inj] at hbin
  rw [hbin]
  apply countP_congr
  intro i _
  simp only [decide_eq_true_eq]
  exact (Locates.quotient_eq_iff hb).symm

/-! ### All passes -/

/-- What the passes lead to: a threshold, or a search. -/
def Selected (n : ℕ) (key : ℕ → Key) (k : ℕ) (r : KeyRange) (s : ℕ) : Prop :=
  r.settled = true ∧ IsThreshold (keyValue key) (liveLanes n key) k r.start.toNat k ∨
    r.settled = false ∧ Searching n key k r s

theorem selected_foldl (hk : 0 < k) {step : ℕ} (hstep : step ≤ passes) :
    Selected n key k ((range step).foldl (fun r step =>
      if r.settled then r else narrow (histogram n key r (radix * (passes - 1 - step))) r
        (radix * (passes - 1 - step)))
      { kRem := k }) (radix * (passes - step)) := by
  induction step with
  | zero => exact Or.inr ⟨rfl, searching_start hk⟩
  | succ step ih =>
    have ih := ih (by omega)
    rw [range_succ, foldl_append, foldl_cons, foldl_nil]
    generalize (range step).foldl _ _ = r at *
    have hshift : radix * (passes - step) = radix * (passes - 1 - step) + radix := by
      have hsub : passes - step = passes - 1 - step + 1 := by omega
      rw [hsub, mul_add, mul_one]
    have hnext : passes - (step + 1) = passes - 1 - step := by omega
    rw [hnext]
    rcases ih with ⟨hs, hthreshold⟩ | ⟨hs, hsearch⟩
    · rw [if_pos hs]
      exact Or.inl ⟨hs, hthreshold⟩
    · rw [hs, if_neg Bool.false_ne_true]
      rw [hshift] at hsearch
      obtain ⟨hsearch, hsettled⟩ := hsearch.narrow
      cases hset : (narrow (histogram n key r (radix * (passes - 1 - step))) r
          (radix * (passes - 1 - step))).settled with
      | true => exact Or.inl ⟨hset, hsettled hset⟩
      | false => exact Or.inr ⟨hset, hsearch⟩

theorem selected_selectRange (hk : 0 < k) :
    Selected n key k (selectRange (histogram n key) k) 0 := by
  have hall := @selected_foldl n k key hk passes (le_refl passes)
  rw [Nat.sub_self, Nat.mul_zero] at hall
  unfold selectRange
  exact hall

/-- A radix select finds a threshold of the live keys. -/
theorem selectRange_isThreshold (hk : 0 < k) :
    ∃ ties : ℕ, ((selectRange (histogram n key) k).threshold k).ties = ties ∧
      IsThreshold (keyValue key) (liveLanes n key) k
        ((selectRange (histogram n key) k).threshold k).start.toNat
        ties := by
  have hselected := @selected_selectRange n k key hk
  generalize selectRange (histogram n key) k = r at *
  unfold KeyRange.threshold
  rcases hselected with ⟨hs, h⟩ | ⟨hs, q, m, hpins, hm, hloc⟩
  · rw [if_pos hs]
    exact ⟨k, rfl, h⟩
  · rw [hs, if_neg Bool.false_ne_true]
    refine ⟨m, hm, ?_⟩
    have hstart := hpins.start
    rw [pow_zero, mul_one] at hstart
    rw [hstart]
    exact hloc.isThreshold

end FreeToken.QsaTopk
