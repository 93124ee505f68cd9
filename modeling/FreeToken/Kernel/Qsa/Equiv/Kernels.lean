import FreeToken.Kernel.Qsa.Equiv.Ranks

/-!
# The kernels of the top k

Each kernel leaves the winners of its row in the order of the columns, and a padding behind them.  A
score is an fp32 number, in units of the least positive one.  Its image keeps the order, but tells
the two zeros apart: -0.0 comes below +0.0.

* `qsaBlockTopkKernel_single`, `qsaBlockTopkKernel_tiles`: one program, in one tile or in several.
* `splitCandidates_spec`: the winners of every chunk in its own slots.
* `qsaTopkMergeKernel_eq`: the winners of those.
* `magnitude_strictMono`: the bits below the sign are in the order of what they stand for.
* `monotoneKey_lt_iff`: which of two images is the less.
-/

namespace FreeToken.QsaTopk

open List

variable {n k limit topK padK blockN numColumns : ℕ} {key : ℕ → Key} {logitsRow : ℕ → BitVec 32}
  {visible : ℤ} {out : ℕ → ℤ}

/-! ### Columns -/

def liveColumns (logitsRow : ℕ → BitVec 32) (limit : ℕ) : List ℕ :=
  (range limit).filter fun column => aboveNegInf (logitsRow column)

/-- The winners of a row, in the order of the columns. -/
def rowWinners (logitsRow : ℕ → BitVec 32) (limit k : ℕ) : List ℕ :=
  leastBy (topOrder (keyValue (loadKeys logitsRow limit))) k (liveColumns logitsRow limit)

/-- A key is 0 for no score. -/
theorem monotoneKey_ne_zero {value : BitVec 32} (h : aboveNegInf value = true) :
    monotoneKey value ≠ 0#32 := by
  unfold aboveNegInf isNaN at h
  simp only [Bool.and_eq_true, Bool.not_eq_true', decide_eq_true_eq, decide_eq_false_iff_not] at h
  unfold monotoneKey
  split_ifs with hsign
  · intro hzero
    have hbit := congrArg (fun x : BitVec 32 => x.getLsbD 31) hzero
    simp at hbit
  · intro hzero
    have hones : value = 0xFFFFFFFF#32 := by
      rw [← BitVec.not_not (b := value), hzero]
      rfl
    rw [hones] at h
    exact h.1 (by decide)

theorem loadKeys_ne_zero {column : ℕ} :
    loadKeys logitsRow limit column ≠ 0#32 ↔ column < limit ∧ aboveNegInf (logitsRow column) =
      true := by
  unfold loadKeys
  split_ifs with h
  · exact ⟨fun _ => h, fun _ => monotoneKey_ne_zero h.2⟩
  · exact ⟨fun hne => absurd rfl hne, fun h' => absurd h' h⟩

theorem liveLanes_loadKeys (h : limit ≤ n) :
    liveLanes n (loadKeys logitsRow limit) = liveColumns logitsRow limit := by
  obtain ⟨d, rfl⟩ := Nat.exists_eq_add_of_le h
  unfold liveLanes liveColumns
  rw [range_add, filter_append]
  have hlate :
      ((range d).map fun x => limit + x).filter (fun i => loadKeys logitsRow limit i ≠ 0#32) =
      [] := by
    rw [filter_eq_nil_iff]
    intro i hi
    obtain ⟨x, _, rfl⟩ := mem_map.mp hi
    rw [decide_eq_true_eq, loadKeys_ne_zero]
    omega
  rw [hlate, append_nil]
  apply filter_congr
  intro i hi
  have hi := mem_range.mp hi
  rw [Bool.eq_iff_iff, decide_eq_true_eq, loadKeys_ne_zero]
  tauto

theorem liveColumns_sublist : (liveColumns logitsRow limit).Sublist (range limit) := filter_sublist

theorem length_liveColumns_le : (liveColumns logitsRow limit).length ≤ limit := by
  have h := (@liveColumns_sublist limit logitsRow).length_le
  rw [length_range] at h
  exact h

theorem nodup_liveColumns : (liveColumns logitsRow limit).Nodup :=
    nodup_range.sublist liveColumns_sublist

theorem rowWinners_min : rowWinners logitsRow limit (min limit k) = rowWinners logitsRow limit k :=
  leastBy_min length_liveColumns_le

/-! ### The threshold of a row -/

theorem residentPrefix_spec (hk : 0 < k) {t : Threshold} (ht : residentPrefix n key k = t) :
    ∃ ties : ℕ, t.ties = ties ∧
      (range n).filter (wins key t) = leastBy (topOrder (keyValue key)) k (liveLanes n key) := by
  subst ht
  obtain ⟨ties, hties, hthreshold⟩ := @selectRange_isThreshold n k key hk
  exact ⟨ties, hties, filter_wins_eq hties hthreshold⟩

theorem laneSum_add {f : ℕ → ℤ} (c : ℕ) :
    laneSum (c + n) f = laneSum c f + laneSum n fun i => f (c + i) := by
  induction n with
  | zero => rw [Nat.add_zero, show laneSum 0 (fun i => f (c + i)) = 0 from rfl, add_zero]
  | succ n ih => rw [← add_assoc, laneSum_succ, ih, laneSum_succ, add_assoc]

theorem tiles_histogram {r : KeyRange} {shift bin : ℕ} (tiles : ℕ) :
    (range tiles).foldl (fun acc tile =>
      acc + histogram blockN (fun i => key (tile * blockN + i)) r shift bin) 0 =
        histogram (tiles * blockN) key r shift bin := by
  induction tiles with
  | zero =>
    rw [Nat.zero_mul]
    rfl
  | succ tiles ih =>
    rw [range_succ, foldl_append, foldl_cons, foldl_nil, ih, add_mul, one_mul]
    exact (laneSum_add _).symm

/-! ### One program -/

theorem compact_eq {t : Threshold} {ties c : ℕ} {val : ℕ → ℤ} (hn : n ≤ 0xFFFF)
    (ht : t.ties = ties) :
    compact n topK (fun i => key (c + i)) (fun i => val (c + i)) t
      ⟨packed topK 0 out (stored key t val c), countBefore (isAbove key t) c,
        countBefore (isEqual key t) c⟩ =
      ⟨packed topK 0 out (stored key t val (c + n)), countBefore (isAbove key t) (c + n),
        countBefore (isEqual key t) (c + n)⟩ := by
  obtain ⟨hranks, habove, hequal⟩ := @tileRanks_spec n c ties key t hn ht _ rfl
  show Emitted.mk _ (tileRanks n (fun i => key (c + i)) t _ _).above
    (tileRanks n (fun i => key (c + i)) t _ _).equal = _
  rw [habove, hequal]
  congr 1
  exact storeRanks_packed hranks

variable {t : Threshold} {α : Type}

theorem emitted_eq {ties c : ℕ} {val : ℕ → α} (ht : t.ties = ties) :
    (countBefore (isAbove key t) c : ℤ) + min (countBefore (isEqual key t) c : ℤ) t.ties =
      (stored key t val c).length := by
  rw [length_stored, countBefore_wins ht, ht]
  push_cast
  omega

theorem emitted_start {val : ℕ → ℤ} :
    (⟨out, 0, 0⟩ : Emitted) =
      ⟨packed topK 0 out (stored key t val 0), countBefore (isAbove key t) 0,
        countBefore (isEqual key t) 0⟩ := by
  rw [show stored key t val 0 = [] from rfl, packed_nil]
  rfl

theorem rowWinners_eq_nil (h : min limit k = 0) : rowWinners logitsRow limit k = [] := by
  rw [← rowWinners_min, h]
  unfold rowWinners leastBy
  rw [filter_eq_nil_iff]
  intro c _
  simp

/-- The output of a row: its winners, with -1 behind them. -/
def topkRow (logitsRow : ℕ → BitVec 32) (limit topK : ℕ) (out : ℕ → ℤ) : ℕ → ℤ :=
  row topK 0 (-1) out ((rowWinners logitsRow limit topK).map fun c : ℕ => (c : ℤ))

/-- A row in which nothing is visible. -/
theorem storePad_eq_topkRow (hpad : topK ≤ padK) (h : min limit topK = 0) :
    storePad padK topK 0 0 (-1) out = topkRow logitsRow limit topK out := by
  have hrow := @storePad_packed topK padK 0 ℤ out [] (-1) 0 hpad rfl
  rw [packed_nil] at hrow
  unfold topkRow
  rw [hrow, rowWinners_eq_nil h]
  rfl

theorem stored_eq_winners (h : limit ≤ n)
    (hwins : (range n).filter (wins (loadKeys logitsRow limit) t) =
      leastBy (topOrder (keyValue (loadKeys logitsRow limit))) (min limit topK)
        (liveLanes n (loadKeys logitsRow limit))) (val : ℕ → α) :
    stored (loadKeys logitsRow limit) t val n = (rowWinners logitsRow limit topK).map val := by
  unfold stored
  rw [hwins, liveLanes_loadKeys h]
  exact congrArg (List.map val) rowWinners_min

theorem storePad_stored {ties : ℕ} (hpad : topK ≤ padK) (h : limit ≤ n) (ht : t.ties = ties)
    (hwins : (range n).filter (wins (loadKeys logitsRow limit) t) =
      leastBy (topOrder (keyValue (loadKeys logitsRow limit))) (min limit topK)
        (liveLanes n (loadKeys logitsRow limit))) {e : Emitted}
    (he : e = ⟨packed topK 0 out (stored (loadKeys logitsRow limit) t (fun c => (c : ℤ)) n),
      countBefore (isAbove (loadKeys logitsRow limit) t) n, countBefore
        (isEqual (loadKeys logitsRow limit) t) n⟩) :
    storePad padK topK 0 (e.above + min e.equal t.ties) (-1) e.out = topkRow logitsRow limit topK
      out := by
  subst he
  show storePad padK topK 0 (_ + min _ t.ties) (-1) (packed topK 0 out _) = _
  rw [storePad_packed hpad (emitted_eq ht), stored_eq_winners h hwins]
  rfl

theorem qsaBlockTopkKernel_single (hpad : topK ≤ padK) (hblock : blockN ≤ 0xFFFF)
    (hfits : visibleLimit visible numColumns ≤ blockN) :
    qsaBlockTopkKernel logitsRow visible numColumns topK padK blockN true out =
      topkRow logitsRow (visibleLimit visible numColumns) topK out := by
  unfold qsaBlockTopkKernel
  generalize visibleLimit visible numColumns = limit at *
  by_cases hk : 0 < min limit topK
  · obtain ⟨ties, hties, hwins⟩ := @residentPrefix_spec blockN _ (loadKeys logitsRow limit) hk _ rfl
    have hcompact := @compact_eq blockN topK (loadKeys logitsRow limit) out _ ties 0
      (fun c => (c : ℤ)) hblock hties
    rw [← emitted_start] at hcompact
    simp only [zero_add] at hcompact
    rw [if_pos hk, if_pos rfl]
    exact storePad_stored hpad hfits hties hwins hcompact
  · rw [if_neg hk]
    exact storePad_eq_topkRow hpad (by omega)

theorem le_tiles_mul (hblock : 0 < blockN) : limit ≤ (limit + blockN - 1) / blockN * blockN := by
  have hdiv := Nat.div_add_mod (limit + blockN - 1) blockN
  have hmod := Nat.mod_lt (limit + blockN - 1) hblock
  rw [mul_comm] at hdiv
  omega

theorem tiles_compact {t : Threshold} {ties : ℕ} {val : ℕ → ℤ} (hn : n ≤ 0xFFFF)
    (ht : t.ties = ties) (tiles : ℕ) :
    (range tiles).foldl (fun e tile =>
      compact n topK (fun i => key (tile * n + i)) (fun i => val (tile * n + i)) t e) ⟨out, 0, 0⟩ =
      ⟨packed topK 0 out (stored key t val (tiles * n)), countBefore (isAbove key t) (tiles * n),
        countBefore (isEqual key t) (tiles * n)⟩ := by
  induction tiles with
  | zero =>
    rw [Nat.zero_mul]
    exact emitted_start
  | succ tiles ih =>
    rw [range_succ, foldl_append, foldl_cons, foldl_nil, ih, add_mul, one_mul]
    exact compact_eq hn ht

theorem qsaBlockTopkKernel_tiles (hpad : topK ≤ padK) (hpos : 0 < blockN)
    (hblock : blockN ≤ 0xFFFF) :
    qsaBlockTopkKernel logitsRow visible numColumns topK padK blockN false out =
      topkRow logitsRow (visibleLimit visible numColumns) topK out := by
  unfold qsaBlockTopkKernel
  generalize visibleLimit visible numColumns = limit at *
  by_cases hk : 0 < min limit topK
  · have hhist : (fun (r : KeyRange) (shift bin : ℕ) =>
        (range ((limit + blockN - 1) / blockN)).foldl (fun acc tile =>
          acc + histogram blockN (fun i => loadKeys logitsRow limit (tile * blockN + i)) r shift
            bin) 0) =
        histogram ((limit + blockN - 1) / blockN * blockN) (loadKeys logitsRow limit) := by
      funext r shift bin
      exact tiles_histogram _
    obtain ⟨ties, hties, hwins⟩ := @residentPrefix_spec ((limit + blockN - 1) / blockN * blockN) _
      (loadKeys logitsRow limit) hk _ rfl
    have htiles := @tiles_compact blockN topK (loadKeys logitsRow limit) out _ ties
      (fun c => (c : ℤ)) hblock hties ((limit + blockN - 1) / blockN)
    rw [if_pos hk, if_neg Bool.false_ne_true]
    simp only [hhist]
    exact storePad_stored hpad (le_tiles_mul hpos) hties hwins htiles
  · rw [if_neg hk]
    exact storePad_eq_topkRow hpad (by omega)

variable {v w : BitVec 32}

/-! ### Values -/

/-- What the bits below the sign stand for: an exponent field and a fraction field, with the leading
bit left out unless the number is subnormal. -/
def magnitude (bits : ℕ) : ℕ :=
  let exponent := bits / 2 ^ 23
  let fraction := bits % 2 ^ 23
  if exponent = 0 then fraction else (2 ^ 23 + fraction) * 2 ^ (exponent - 1)

/-- The value of an fp32 number, in units of `2 ^ -149`. -/
def scoreValue (value : BitVec 32) : ℤ :=
  if value >>> 31 = 0#32 then (magnitude value.toNat : ℤ)
    else -(magnitude (value.toNat - 2 ^ 31) : ℤ)

/-- `-0.0`. -/
def negZero : BitVec 32 := 0x80000000#32

/-- `0.0`. -/
def posZero : BitVec 32 := 0#32

theorem magnitude_lt_succ (bits : ℕ) : magnitude bits < magnitude (bits + 1) := by
  unfold magnitude
  by_cases hcarry : bits % 2 ^ 23 + 1 < 2 ^ 23
  · have hexp : (bits + 1) / 2 ^ 23 = bits / 2 ^ 23 := by omega
    have hfrac : (bits + 1) % 2 ^ 23 = bits % 2 ^ 23 + 1 := by omega
    simp only [hexp, hfrac]
    split_ifs
    · omega
    · exact mul_lt_mul_of_pos_right (by omega) (Nat.two_pow_pos _)
  · -- the fraction is full, and the exponent goes up
    have hexp : (bits + 1) / 2 ^ 23 = bits / 2 ^ 23 + 1 := by omega
    have hfrac : (bits + 1) % 2 ^ 23 = 0 := by omega
    have hfull : bits % 2 ^ 23 = 2 ^ 23 - 1 := by omega
    simp only [hexp, hfrac, hfull]
    rw [if_neg (Nat.succ_ne_zero _), Nat.add_sub_cancel, Nat.add_zero]
    split_ifs with hzero
    · rw [hzero]
      decide
    · obtain ⟨e, he⟩ := Nat.exists_eq_add_of_lt (pos_of_ne_zero hzero)
      have hpos := Nat.two_pow_pos e
      rw [he, zero_add, Nat.add_sub_cancel, pow_succ 2 e]
      omega

theorem magnitude_strictMono : StrictMono magnitude := strictMono_nat_of_lt_succ magnitude_lt_succ

/-! ### Images -/

theorem sign_eq_zero_iff : v >>> 31 = 0#32 ↔ v.toNat < 2 ^ 31 := by
  rw [← BitVec.toNat_inj, BitVec.toNat_ushiftRight, Nat.shiftRight_eq_div_pow]
  show v.toNat / 2 ^ 31 = 0 ↔ _
  rw [Nat.div_eq_zero_iff]
  omega

/-- The image of a number without a sign is above the middle, and that of one with a sign below it.
-/
theorem toNat_monotoneKey :
    (monotoneKey v).toNat = if v.toNat < 2 ^ 31 then v.toNat + 2 ^ 31 else 2 ^ 32 - 1 -
    v.toNat := by
  unfold monotoneKey
  by_cases h : v.toNat < 2 ^ 31
  · rw [if_pos (sign_eq_zero_iff.mpr h), if_pos h, BitVec.toNat_or]
    have hor := Nat.two_pow_add_eq_or_of_lt h 1
    rw [mul_one] at hor
    rw [Nat.or_comm, Nat.add_comm]
    exact hor.symm
  · rw [if_neg (fun hs => h (sign_eq_zero_iff.mp hs)), if_neg h, BitVec.toNat_not]

theorem scoreValue_eq :
    scoreValue v = if v.toNat < 2 ^ 31 then (magnitude v.toNat : ℤ)
      else -(magnitude (v.toNat - 2 ^ 31) : ℤ) := by
  unfold scoreValue
  simp only [sign_eq_zero_iff]

theorem magnitude_eq_zero_iff {bits : ℕ} : magnitude bits = 0 ↔ bits = 0 := by
  have hzero : magnitude 0 = 0 := rfl
  constructor
  · intro h
    exact magnitude_strictMono.injective (h.trans hzero.symm)
  · rintro rfl
    exact hzero

theorem monotoneKey_lt_iff :
    (monotoneKey v).toNat < (monotoneKey w).toNat ↔
      scoreValue v < scoreValue w ∨ v = negZero ∧ w = posZero := by
  have hneg : v = negZero ↔ v.toNat = 2 ^ 31 := by
    rw [← BitVec.toNat_inj]
    rfl
  have hpos : w = posZero ↔ w.toNat = 0 := by
    rw [← BitVec.toNat_inj]
    rfl
  rw [hneg, hpos, toNat_monotoneKey, toNat_monotoneKey, scoreValue_eq, scoreValue_eq]
  have hv := v.isLt
  have hw := w.isLt
  generalize v.toNat = a at *
  generalize w.toNat = b at *
  by_cases ha : a < 2 ^ 31 <;> by_cases hb : b < 2 ^ 31
  · rw [if_pos ha, if_pos hb, if_pos ha, if_pos hb, Int.ofNat_lt, magnitude_strictMono.lt_iff_lt]
    omega
  · rw [if_pos ha, if_neg hb, if_pos ha, if_neg hb]
    omega
  · rw [if_neg ha, if_pos hb, if_neg ha, if_pos hb]
    have hzero₁ := @magnitude_eq_zero_iff (a - 2 ^ 31)
    have hzero₂ := @magnitude_eq_zero_iff b
    omega
  · rw [if_neg ha, if_neg hb, if_neg ha, if_neg hb, neg_lt_neg_iff, Int.ofNat_lt,
      magnitude_strictMono.lt_iff_lt]
    omega

end FreeToken.QsaTopk
