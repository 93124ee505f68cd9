import FreeToken.Kernel.Qsa.Equiv.Radix

/-!
# The winners of a threshold, packed at the front of a row

A tile ranks its lanes by a prefix sum that goes on where the tile before it has ended.

* `wins`: the lanes of all tiles that a threshold takes; `filter_wins_eq` names them.
* `tileRanks_spec`: what a tile finds about them.
* `packed`: a row with some values at the front, `row`: the same with a padding behind them.  The
  stores of a tile (`storeRanks_packed`) and the last store (`storePad_packed`) lead there.
-/

namespace FreeToken.QsaTopk

open List

variable {n k c i topK padK base ties : ℕ} {key : ℕ → Key} {t : Threshold} {p : ℕ → Bool}

/-! ### Who wins -/

def isAbove (key : ℕ → Key) (t : Threshold) (i : ℕ) : Bool := t.start < key i && key i ≠ 0#32

def isEqual (key : ℕ → Key) (t : Threshold) (i : ℕ) : Bool := key i = t.start && key i ≠ 0#32

/-- How many lanes before a lane are in a mask. -/
def countBefore (p : ℕ → Bool) (i : ℕ) : ℕ := (List.range i).countP p

def wins (key : ℕ → Key) (t : Threshold) (i : ℕ) : Bool :=
  isAbove key t i || (isEqual key t i && (countBefore (isEqual key t) i : ℤ) < t.ties)

theorem countBefore_succ : countBefore p (i + 1) = countBefore p i + if p i then 1 else 0 := by
  unfold countBefore
  rw [range_succ, countP_append, countP_singleton]

theorem countBefore_le : countBefore p i ≤ i := by
  have h : (List.range i).countP p ≤ (List.range i).length := countP_le_length
  rw [length_range] at h
  exact h

theorem countBefore_add :
    countBefore p (c + i) = countBefore p c + countBefore (fun j => p (c + j)) i := by
  unfold countBefore
  rw [range_add, countP_append, countP_map]
  rfl

theorem isAbove_eq_false_of_isEqual (h : isEqual key t i = true) : isAbove key t i = false := by
  unfold isEqual at h
  unfold isAbove
  simp only [Bool.and_eq_true, decide_eq_true_eq] at h
  rw [h.1]
  simp

/-- The rank of a lane: of the equal ones before it only the taken ones count. -/
theorem countBefore_wins (ht : t.ties = ties) :
    countBefore (wins key t) i = countBefore (isAbove key t) i + min (countBefore (isEqual key t) i)
      ties := by
  induction i with
  | zero => simp [countBefore]
  | succ i ih =>
    rw [countBefore_succ, countBefore_succ, countBefore_succ, ih]
    have hwins : wins key t i =
        (isAbove key t i || (isEqual key t i && countBefore (isEqual key t) i < ties)) := by
      unfold wins
      rw [ht]
      congr 2
      simp
    rw [hwins]
    cases ha : isAbove key t i with
    | true =>
      have he : isEqual key t i = false := by
        rw [← Bool.not_eq_true]
        intro he
        rw [isAbove_eq_false_of_isEqual he] at ha
        exact Bool.false_ne_true ha
      rw [he]
      simp
      omega
    | false =>
      cases isEqual key t i with
      | true =>
        by_cases hlt : countBefore (isEqual key t) i < ties
        · simp [hlt]
          omega
        · simp [hlt]
          omega
      | false => simp

theorem filter_wins_eq (ht : t.ties = ties)
    (h : IsThreshold (keyValue key) (liveLanes n key) k t.start.toNat ties) :
    (List.range n).filter (wins key t) = leastBy (topOrder (keyValue key)) k (liveLanes n key) := by
  have hlive : ∀ i ∈ liveLanes n key, 0 < keyValue key i := by
    intro i hi
    have hne := of_decide_eq_true (List.mem_filter.mp hi).2
    apply Nat.pos_of_ne_zero
    intro hzero
    exact hne (BitVec.toNat_inj.mp hzero)
  unfold leastBy
  rw [show liveLanes n key = (List.range n).filter fun i => key i ≠ 0#32 from rfl, filter_filter]
  apply filter_congr
  intro i hi
  have hin := List.mem_range.mp hi
  rw [Bool.eq_iff_iff]
  unfold wins isAbove
  simp only [Bool.or_eq_true, Bool.and_eq_true, decide_eq_true_eq]
  by_cases hkey : key i = 0#32
  · simp [hkey, isEqual]
  · have hmem : i ∈ liveLanes n key := List.mem_filter.mpr ⟨hi, decide_eq_true hkey⟩
    have hrank := h.rankBy_lt_iff hlive hmem
    -- the ties before a lane count the same among the live lanes and among all
    have hcount : ((liveLanes n key).countP fun j => keyValue key j = t.start.toNat ∧ j < i) =
        countBefore (isEqual key t) i := by
      obtain ⟨d, rfl⟩ : ∃ d, n = i + d := ⟨n - i, by omega⟩
      unfold liveLanes countBefore
      rw [countP_filter, range_add, countP_append]
      have hlate : (((List.range d).map fun x => i + x).countP fun j =>
          decide (keyValue key j = t.start.toNat ∧ j < i) && decide (key j ≠ 0#32)) = 0 := by
        rw [countP_eq_zero]
        intro j hj
        obtain ⟨x, _, rfl⟩ := List.mem_map.mp hj
        simp
      rw [hlate, Nat.add_zero]
      apply countP_congr
      intro j hj
      have hj := List.mem_range.mp hj
      unfold isEqual keyValue
      simp only [Bool.and_eq_true, decide_eq_true_eq, BitVec.toNat_inj]
      tauto
    have hvalue : key i = t.start ↔ keyValue key i = t.start.toNat := BitVec.toNat_inj.symm
    rw [hcount] at hrank
    show _ ↔ rankBy (topOrder (keyValue key)) (liveLanes n key) i < k ∧ _
    rw [hrank, ht, BitVec.lt_def, show (key i).toNat = keyValue key i from rfl]
    have hequal : isEqual key t i = true ↔ key i = t.start ∧ key i ≠ 0#32 := by
      unfold isEqual
      simp
    rw [hequal, hvalue, Int.ofNat_lt]
    tauto

/-! ### The ranks of a tile -/

/-- The summands of the packed prefix sum. -/
def pack (key : ℕ → Key) (t : Threshold) (i : ℕ) : ℤ :=
  maskInt (isAbove key t) i + 2 ^ 16 * maskInt (isEqual key t) i

theorem laneSum_pack :
    laneSum n (pack key t) = countBefore (isAbove key t) n + 2 ^ 16 * countBefore (isEqual key t)
      n := by
  induction n with
  | zero => rfl
  | succ n ih =>
    rw [laneSum_succ, ih, countBefore_succ, countBefore_succ]
    unfold pack maskInt
    push_cast
    cases isAbove key t n <;> cases isEqual key t n <;> simp <;> omega

/-- The two halves do not mix. -/
theorem pack_halves (hi : i ≤ 0xFFFF) :
    laneSum i (pack key t) % 2 ^ 16 = countBefore (isAbove key t) i ∧
      laneSum i (pack key t) / 2 ^ 16 = countBefore (isEqual key t) i := by
  rw [laneSum_pack]
  have hle : countBefore (isAbove key t) i ≤ i := countBefore_le
  constructor <;> omega

theorem laneCumsum_pack : laneCumsum (pack key t) i - pack key t i = laneSum i (pack key t) := by
  rw [laneCumsum, laneSum_succ, add_sub_cancel_right]

theorem tileRanks_eq {a e : ℤ} :
    tileRanks n key t a e =
      { rank := fun i => a + laneSum i (pack key t) % 2 ^ 16 +
        min (e + laneSum i (pack key t) / 2 ^ 16) t.ties
        take := fun i => isAbove key t i ||
          (isEqual key t i && e + laneSum i (pack key t) / 2 ^ 16 < t.ties)
        above := a + laneSum n (pack key t) % 2 ^ 16
        equal := e + laneSum n (pack key t) / 2 ^ 16 } := by
  show TileRanks.mk (fun i => a + (laneCumsum (pack key t) i - pack key t i) % 2 ^ 16 +
      min (e + (laneCumsum (pack key t) i - pack key t i) / 2 ^ 16) t.ties)
    (fun i => isAbove key t i ||
      (isEqual key t i && e + (laneCumsum (pack key t) i - pack key t i) / 2 ^ 16 < t.ties)) _ _ = _
  simp only [laneCumsum_pack]
  rfl

/-- What the tile at the column `c` finds, when the bases are the counts before it. -/
theorem tileRanks_spec (hn : n ≤ 0xFFFF) (ht : t.ties = ties) {r : TileRanks}
    (hr : tileRanks n (fun i => key (c + i)) t (countBefore (isAbove key t) c)
      (countBefore (isEqual key t) c) = r) :
    (∀ i < n, r.take i = wins key t (c + i) ∧ r.rank i = countBefore (wins key t) (c + i)) ∧
      r.above = countBefore (isAbove key t) (c + n) ∧
        r.equal = countBefore (isEqual key t) (c + n) := by
  rw [tileRanks_eq] at hr
  subst hr
  -- the counts of this tile go on from those before it
  have habove : ∀ i, (countBefore (isAbove key t) (c + i) : ℤ) =
      countBefore (isAbove key t) c + countBefore (isAbove (fun i => key (c + i)) t) i := by
    intro i
    rw [countBefore_add]
    push_cast
    rfl
  have hequal : ∀ i, (countBefore (isEqual key t) (c + i) : ℤ) =
      countBefore (isEqual key t) c + countBefore (isEqual (fun i => key (c + i)) t) i := by
    intro i
    rw [countBefore_add]
    push_cast
    rfl
  refine ⟨fun i hi => ⟨?_, ?_⟩, ?_, ?_⟩
  · show (isAbove (fun i => key (c + i)) t i || (isEqual (fun i => key (c + i)) t i && decide _)) =
      wins key t (c + i)
    unfold wins
    rw [(pack_halves (by omega)).2, ← hequal]
    rfl
  · show _ + _ + min _ t.ties = _
    rw [(pack_halves (by omega)).1, (pack_halves (by omega)).2, ← habove, ← hequal,
      countBefore_wins ht, ht]
    push_cast
    omega
  · show _ + _ = _
    rw [(pack_halves hn).1, habove]
  · show _ + _ = _
    rw [(pack_halves hn).2, hequal]

/-! ### Rows -/

section Rows

variable {α : Type} {out : ℕ → α} {vals : List α} {v pad : α} {j : ℕ}

/-- A row of `topK` slots from `base` on, with some values at the front. -/
def packed (topK base : ℕ) (out : ℕ → α) (vals : List α) (j : ℕ) : α :=
  if base ≤ j ∧ j < base + topK then (vals[j - base]?).getD (out j) else out j

/-- The same, with a padding behind the values. -/
def row (topK base : ℕ) (pad : α) (out : ℕ → α) (vals : List α) (j : ℕ) : α :=
  if base ≤ j ∧ j < base + topK then (vals[j - base]?).getD pad else out j

theorem packed_nil : packed topK base out [] = out := by
  funext j
  simp [packed]

/-- One value more, if there is a slot. -/
theorem packed_snoc :
    packed topK base out (vals ++ [v]) =
      if vals.length < topK then Function.update (packed topK base out vals) (base + vals.length) v
      else packed topK base out vals := by
  funext j
  by_cases hj : j = base + vals.length
  · subst hj
    split_ifs with hlt
    · rw [Function.update_self]
      unfold packed
      rw [if_pos ⟨Nat.le_add_right _ _, by omega⟩, Nat.add_sub_cancel_left,
        List.getElem?_concat_length]
      rfl
    · unfold packed
      rw [if_neg (by omega), if_neg (by omega)]
  · have hsame : packed topK base out (vals ++ [v]) j = packed topK base out vals j := by
      unfold packed
      split_ifs with hin
      · by_cases hlt : j - base < vals.length
        · rw [List.getElem?_append_left hlt]
        · rw [List.getElem?_eq_none (by simp; omega), List.getElem?_eq_none (by omega)]
      · rfl
    split_ifs
    · rw [Function.update_of_ne hj, hsame]
    · exact hsame

/-- The winners before a column, and what is stored for them. -/
def stored (key : ℕ → Key) (t : Threshold) (val : ℕ → α) (c : ℕ) : List α :=
  ((List.range c).filter (wins key t)).map val

theorem length_stored {val : ℕ → α} : (stored key t val c).length = countBefore (wins key t) c := by
  unfold stored countBefore
  rw [length_map, countP_eq_length_filter]

/-- The store of a tile goes on where the one before it has stopped. -/
theorem storeRanks_packed {r : TileRanks} {val : ℕ → α}
    (h : ∀ i < n, r.take i = wins key t (c + i) ∧ r.rank i = countBefore (wins key t) (c + i)) :
    storeRanks n topK base r (fun i => val (c + i)) (packed topK base out (stored key t val c)) =
      packed topK base out (stored key t val (c + n)) := by
  unfold storeRanks
  induction n with
  | zero => rfl
  | succ n ih =>
    obtain ⟨htake, hrank⟩ := h n (Nat.lt_succ_self n)
    rw [laneStore_succ, ih fun i hi => h i (by omega), htake, hrank, Int.toNat_natCast]
    have hsucc : stored key t val (c + (n + 1)) =
        stored key t val (c + n) ++ if wins key t (c + n) then [val (c + n)] else [] := by
      unfold stored
      rw [← Nat.add_assoc, range_succ, filter_append, map_append]
      cases hw : wins key t (c + n) <;> simp [hw]
    rw [hsucc, ← @length_stored (c + n) key t α val]
    cases wins key t (c + n) with
    | true =>
      rw [if_pos rfl, packed_snoc]
      by_cases hlt : (stored key t val (c + n)).length < topK <;> simp [hlt]
    | false => simp

theorem storeRanks_zero {val : ℕ → α} (hn : n ≤ 0xFFFF) (ht : t.ties = ties) :
    storeRanks n topK base (tileRanks n key t 0 0) val out =
      packed topK base out (stored key t val n) := by
  have hranks := (@tileRanks_spec n 0 ties key t hn ht _ rfl).1
  have hstore := @storeRanks_packed n 0 topK base key t α out _ val hranks
  rw [show stored key t val 0 = [] from rfl, packed_nil] at hstore
  simp only [Nat.zero_add] at hstore
  exact hstore

theorem emitted_zero {val : ℕ → α} (hn : n ≤ 0xFFFF) (ht : t.ties = ties) :
    (tileRanks n key t 0 0).above + min (tileRanks n key t 0 0).equal t.ties =
    (stored key t val n).length := by
  obtain ⟨-, habove, hequal⟩ := @tileRanks_spec n 0 ties key t hn ht _ rfl
  simp only [Nat.zero_add] at habove hequal
  rw [show ((countBefore (isAbove key t) 0 : ℕ) : ℤ) = 0 from rfl,
    show ((countBefore (isEqual key t) 0 : ℕ) : ℤ) = 0 from rfl] at habove hequal
  rw [habove, hequal, length_stored, countBefore_wins ht, ht]
  push_cast
  omega

theorem storePad_packed {emitted : ℤ} (hpad : topK ≤ padK) (he : emitted = vals.length) :
    storePad padK topK base emitted pad (packed topK base out vals) =
      row topK base pad out vals := by
  subst he
  funext j
  unfold storePad row
  by_cases hin : base ≤ j ∧ j < base + topK
  · rw [if_pos hin]
    by_cases hlt : j - base < vals.length
    · rw [laneStore_of_ne]
      · unfold packed
        rw [if_pos hin, List.getElem?_eq_getElem hlt]
        rfl
      · intro i _ hi hij
        simp only [Bool.and_eq_true, decide_eq_true_eq] at hi
        omega
    · rw [List.getElem?_eq_none (by omega)]
      apply @laneStore_of_eq _ padK (j - base) j _ _ _ _ pad (by omega) _ (by omega) fun _ _ _ _ =>
        rfl
      simp only [Bool.and_eq_true, decide_eq_true_eq]
      omega
  · rw [if_neg hin, laneStore_of_ne]
    · unfold packed
      rw [if_neg hin]
    · intro i hi hm hij
      simp only [Bool.and_eq_true, decide_eq_true_eq] at hm
      omega

end Rows

end FreeToken.QsaTopk
