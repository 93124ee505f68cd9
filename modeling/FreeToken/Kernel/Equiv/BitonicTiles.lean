import FreeToken.Kernel.MinimaxM3Sparse
import FreeToken.Lib.BitonicNetwork
import FreeToken.Lib.TopK
import Mathlib.Tactic.Linarith

/-!
# The running tile of the block selection

The masked sums and the exclusive or move entries about unchanged where no score is a negative zero.

* `bitonicMerge_merged`, `bitonicStages_stages`: the network of the kernels is a bitonic network.
* `addTile_keeps`: the better half of the running tile has the greatest entries of all the tiles so
  far.
* `stream_isTop`: what is in front after the loop.
-/

namespace FreeToken.MinimaxM3

open List Bitonic TopK

/-! ### Sums with a zero -/

theorem magnitude_sign (x : Fp32) : magnitude (x &&& negZero) = 0 := by
  unfold magnitude negZero
  rw [BitVec.toNat_and, Nat.and_mod_two_pow]
  have hsign : (0x80000000#32 : BitVec 32).toNat % 2 ^ 31 = 0 := by decide
  rw [hsign, Nat.and_zero]

theorem isZero_sign (x : Fp32) : isZero (x &&& negZero) = true := by
  rw [isZero, magnitude_sign]
  rfl

variable {x : Fp32}

theorem eq_zero_of_isZero (h : isZero x = true) (hx : x ≠ negZero) : x = 0 := by
  have hmag : x.toNat % 2 ^ 31 = 0 := by simpa [isZero, magnitude] using h
  have hlt := x.isLt
  have hne : x.toNat ≠ 2 ^ 31 := fun heq => hx (BitVec.eq_of_toNat_eq heq)
  exact BitVec.eq_of_toNat_eq (by
    change x.toNat = 0
    omega)

theorem plus_sign (hx : x ≠ negZero) (y : Fp32) : plus x (y &&& negZero) = x := by
  unfold plus
  by_cases h : isZero x = true
  · rw [if_pos h, if_pos (isZero_sign y), eq_zero_of_isZero h hx]
    exact BitVec.zero_and
  · rw [if_neg h]

theorem sign_plus (hx : x ≠ negZero) (y : Fp32) : plus (y &&& negZero) x = x := by
  unfold plus
  rw [if_pos (isZero_sign y)]
  by_cases h : isZero x = true
  · rw [if_pos h, eq_zero_of_isZero h hx]
    exact BitVec.and_zero
  · rw [if_neg h]

theorem plus_times (hx : x ≠ negZero) (y : Fp32) : plus (times x true) (times y false) = x :=
    plus_sign hx y

theorem times_plus (hx : x ≠ negZero) (y : Fp32) : plus (times y false) (times x true) = x :=
    sign_plus hx y

/-! ### Entries -/

/-- The entry of a lane: a score with its block number. -/
def Tile.entry (t : Tile) (p : ℕ) : Fp32 × ℕ := (t.x p, t.ids p)

def entryRank (e : Fp32 × ℕ) : ℤ := rank e.1

/-- No score of the tile is a negative zero. -/
def Plain (N : ℕ) (t : Tile) : Prop := ∀ p < N, t.x p ≠ negZero

/-! ### A comparator stage -/

section

variable {d p : ℕ}

theorem div_mul_add_mod (hp : p % (2 * d) < d) : p / (2 * d) * (2 * d) + p % d = p := by
  have hmod : p % d = p % (2 * d) := by
    rw [← Nat.mod_mod_of_dvd p (dvd_mul_left d 2), Nat.mod_eq_of_lt hp]
  rw [hmod, mul_comm]
  exact Nat.div_add_mod p (2 * d)

theorem add_div_of_mod_lt (hp : p % (2 * d) < d) : (p + d) / (2 * d) = p / (2 * d) := by
  have hsplit := Nat.div_add_mod p (2 * d)
  have heq : p + d = 2 * d * (p / (2 * d)) + (p % (2 * d) + d) := by omega
  rw [heq, Nat.mul_add_div (by omega), Nat.div_eq_of_lt (by omega : p % (2 * d) + d < 2 * d),
    add_zero]

end

theorem xor_low (a b : Fp32) (c : Bool) :
    (a ^^^ if c then a ^^^ b else 0) = if c then b else a := by
  cases c with
  | true => rw [if_pos rfl, if_pos rfl, ← BitVec.xor_assoc, BitVec.xor_self, BitVec.zero_xor]
  | false => exact BitVec.xor_zero

theorem xor_high (a b : Fp32) (c : Bool) :
    (b ^^^ if c then a ^^^ b else 0) = if c then a else b := by
  rw [BitVec.xor_comm a b]
  exact xor_low b a c

theorem natXor_low (a b : ℕ) (c : Bool) :
    (a ^^^ if c then a ^^^ b else 0) = if c then b else a := by
  cases c with
  | true => rw [if_pos rfl, if_pos rfl, ← Nat.xor_assoc, Nat.xor_self, Nat.zero_xor]
  | false => exact Nat.xor_zero a

theorem natXor_high (a b : ℕ) (c : Bool) :
    (b ^^^ if c then a ^^^ b else 0) = if c then a else b := by
  rw [Nat.xor_comm a b]
  exact natXor_low b a c

variable {flip : ℕ → Bool} {t : Tile} {nDims p : ℕ}

/-- The lanes of a pair are swapped or left alone together. -/
theorem compareAndSwap_entry {N i d : ℕ} (ht : Plain N t) (hd : 2 ^ (nDims - i - 1) = d)
    (hp : p % (2 * d) < d) (hN : p + d < N) (hflip : flip (p + d) = flip p) :
    (compareAndSwap t flip i nDims).entry p =
        (if gt (t.x p) (t.x (p + d)) != flip p then t.entry (p + d) else t.entry p) ∧
      (compareAndSwap t flip i nDims).entry (p + d) =
        (if gt (t.x p) (t.x (p + d)) != flip p then t.entry p else t.entry (p + d)) := by
  have hx := ht p (by omega)
  have hy := ht (p + d) hN
  have hlane := div_mul_add_mod hp
  have hlane' : p / (2 * d) * (2 * d) + d + p % d = p + d := by omega
  have hdiv := add_div_of_mod_lt hp
  constructor
  · simp only [Tile.entry, compareAndSwap, hd, Nat.zero_mul, one_mul, add_zero, hlane, hlane',
      plus_times hx, times_plus hy, Nat.mul_one, Nat.mul_zero, zero_add, xor_low, natXor_low]
    split <;> rfl
  · simp only [Tile.entry, compareAndSwap, hd, hdiv, Nat.add_mod_right, Nat.zero_mul, one_mul,
      add_zero, hlane, hlane', plus_times hx, times_plus hy, Nat.mul_one, Nat.mul_zero, zero_add,
      hflip, xor_high, natXor_high]
    split <;> rfl

theorem compareAndSwap_exchanged {N i d : ℕ} (ht : Plain N t)
    (hd : 2 ^ (nDims - i - 1) = d) (hflip : ∀ p, p % (2 * d) < d → flip (p + d) = flip p) :
    Exchanged entryRank N d flip t.entry (compareAndSwap t flip i nDims).entry where
  pair p hp hN := by
    obtain ⟨hlow, hhigh⟩ := compareAndSwap_entry ht hd hp hN (hflip p hp)
    rw [hlow, hhigh]
    cases gt (t.x p) (t.x (p + d)) != flip p with
    | true => exact .inr ⟨rfl, rfl⟩
    | false => exact .inl ⟨rfl, rfl⟩
  directed p hp hN := by
    obtain ⟨hlow, hhigh⟩ := compareAndSwap_entry ht hd hp hN (hflip p hp)
    rw [hlow, hhigh]
    by_cases hgt : rank (t.x (p + d)) < rank (t.x p)
    · have hdec : gt (t.x p) (t.x (p + d)) = true := decide_eq_true hgt
      cases hf : flip p with
      | true => simpa [hdec, entryRank, Tile.entry] using hgt.le
      | false => simpa [hdec, entryRank, Tile.entry] using hgt.le
    · have hdec : gt (t.x p) (t.x (p + d)) = false := decide_eq_false hgt
      cases hf : flip p with
      | true => simpa [hdec, entryRank, Tile.entry] using not_lt.mp hgt
      | false => simpa [hdec, entryRank, Tile.entry] using not_lt.mp hgt

theorem lower_or_upper {N d : ℕ} (hd : 0 < d) (hdvd : 2 * d ∣ N) (hp : p < N) :
    p % (2 * d) < d ∧ p + d < N ∨ ∃ q, p = q + d ∧ q % (2 * d) < d := by
  have hsplit := Nat.div_add_mod p (2 * d)
  have hmod := Nat.mod_lt p (show 0 < 2 * d by omega)
  by_cases h : p % (2 * d) < d
  · obtain ⟨c, rfl⟩ := hdvd
    have hc : p / (2 * d) + 1 ≤ c := Nat.div_lt_of_lt_mul hp
    have hle := Nat.mul_le_mul_left (2 * d) hc
    rw [mul_add, Nat.mul_one] at hle
    exact .inl ⟨h, by omega⟩
  · refine .inr ⟨p - d, by omega, ?_⟩
    have heq : p - d = 2 * d * (p / (2 * d)) + (p % (2 * d) - d) := by omega
    rw [heq, Nat.mul_add_mod, Nat.mod_eq_of_lt (by omega)]
    omega

theorem compareAndSwap_plain {i s : ℕ} (ht : Plain (2 ^ nDims) t)
    (hs : nDims - i - 1 = s) (hlt : s < nDims)
    (hflip : ∀ p, p % (2 * 2 ^ s) < 2 ^ s → flip (p + 2 ^ s) = flip p) :
    Plain (2 ^ nDims) (compareAndSwap t flip i nDims) := by
  have hex := compareAndSwap_exchanged ht (congrArg (2 ^ ·) hs) hflip
  have hdvd : 2 * 2 ^ s ∣ 2 ^ nDims := by
    rw [← pow_succ']
    exact pow_dvd_pow 2 hlt
  have hpair :
      ∀ p, p % (2 * 2 ^ s) < 2 ^ s → p + 2 ^ s < 2 ^ nDims → (compareAndSwap t flip i nDims).x p ≠
      negZero ∧
      (compareAndSwap t flip i nDims).x (p + 2 ^ s) ≠ negZero := by
    intro p hmod hN
    have hx := ht p (by omega)
    have hy := ht (p + 2 ^ s) hN
    rcases hex.pair p hmod hN with ⟨hlow, hhigh⟩ | ⟨hlow, hhigh⟩
    · exact ⟨fun h => hx ((congrArg Prod.fst hlow).symm.trans h), fun h =>
        hy ((congrArg Prod.fst hhigh).symm.trans h)⟩
    · exact ⟨fun h => hy ((congrArg Prod.fst hlow).symm.trans h), fun h =>
        hx ((congrArg Prod.fst hhigh).symm.trans h)⟩
  intro p hp
  rcases lower_or_upper (Nat.two_pow_pos s) hdvd hp with ⟨hmod, hN⟩ | ⟨q, rfl, hmod⟩
  · exact (hpair p hmod hN).1
  · exact (hpair q hmod hp).2

/-! ### The network -/

variable {nDims stage : ℕ} {t : Tile}

theorem compareAndSwaps_merged (flip : ℕ → Bool) (ht : Plain (2 ^ nDims) t) (hs : stage ≤ nDims)
    (hflip : ∀ s < stage, ∀ p, p % (2 * 2 ^ s) < 2 ^ s → flip (p + 2 ^ s) = flip p) :
    Merged entryRank (2 ^ nDims) flip stage t.entry
        ((range stage).foldl (fun t i => compareAndSwap t flip (i + (nDims - stage)) nDims)
          t).entry ∧
      Plain (2 ^ nDims)
        ((range stage).foldl (fun t i => compareAndSwap t flip (i + (nDims - stage)) nDims) t) := by
  induction stage generalizing t with
  | zero => exact ⟨rfl, ht⟩
  | succ stage ih =>
    have hdist : nDims - (0 + (nDims - (stage + 1))) - 1 = stage := by omega
    have hflipS := hflip stage (Nat.lt_succ_self stage)
    have hplain := compareAndSwap_plain ht hdist hs hflipS
    obtain ⟨hmerged, hplain'⟩ :=
      ih hplain (Nat.le_of_succ_le hs) fun s hlt => hflip s (Nat.lt_succ_of_lt hlt)
    -- the first comparators are those of the greatest distance
    have hfold :
        (range (stage + 1)).foldl
        (fun t i => compareAndSwap t flip (i + (nDims - (stage + 1))) nDims) t =
        (range stage).foldl (fun t i => compareAndSwap t flip (i + (nDims - stage)) nDims)
          (compareAndSwap t flip (0 + (nDims - (stage + 1))) nDims) := by
      rw [range_succ_eq_map, foldl_cons, foldl_map]
      congr 1
      funext t i
      rw [show i.succ + (nDims - (stage + 1)) = i + (nDims - stage) by omega]
    rw [hfold]
    exact ⟨⟨_, compareAndSwap_exchanged ht (congrArg (2 ^ ·) hdist) hflipS, hmerged⟩, hplain'⟩

theorem flip_pair {s : ℕ} (hs : s < stage) (hp : p % (2 * 2 ^ s) < 2 ^ s) :
    (p + 2 ^ s) / 2 ^ stage = p / 2 ^ stage := by
  obtain ⟨r, hr⟩ := Nat.exists_eq_add_of_lt hs
  have hpow : 2 ^ stage = 2 * 2 ^ s * 2 ^ r := by
    rw [hr, ← pow_succ', ← pow_add]
    congr 1
    omega
  rw [hpow, ← Nat.div_div_eq_div_mul (p + 2 ^ s) (2 * 2 ^ s), ← Nat.div_div_eq_div_mul p
    (2 * 2 ^ s), add_div_of_mod_lt hp]

theorem bitonicMerge_merged (ht : Plain (2 ^ nDims) t) (down : Bool) :
    Merged entryRank (2 ^ nDims) (fun _ => down) nDims t.entry
      (bitonicMerge t nDims down.toNat nDims).entry ∧
      Plain (2 ^ nDims) (bitonicMerge t nDims down.toNat nDims) := by
  have hmerged := compareAndSwaps_merged (fun _ => down) ht (le_refl nDims) fun _ _ _ _ => rfl
  cases down with
  | true => exact hmerged
  | false => exact hmerged

theorem bitonicStages_stages (ht : Plain (2 ^ nDims) t) :
    Stages entryRank (2 ^ nDims) (nDims - 1) t.entry (bitonicStages t nDims).entry ∧
      Plain (2 ^ nDims) (bitonicStages t nDims) := by
  unfold bitonicStages
  have hle : nDims - 1 ≤ nDims := Nat.sub_le nDims 1
  revert hle
  generalize nDims - 1 = j
  intro hle
  induction j with
  | zero => exact ⟨rfl, ht⟩
  | succ j ih =>
    obtain ⟨hstages, hplain⟩ := ih (Nat.le_of_succ_le hle)
    rw [range'_1_concat, foldl_append]
    obtain ⟨hmerged, hplain'⟩ := compareAndSwaps_merged (fun p => p / 2 ^ (j + 1) % 2 == 1) hplain
      hle fun s hs p hp => by rw [flip_pair hs hp]
    rw [add_comm 1 j]
    exact ⟨⟨_, hstages, hmerged⟩, hplain'⟩

theorem sorted_tile (ht : Plain (2 ^ nDims) t) (down : Bool) :
    (block (bitonicMerge (bitonicStages t nDims) nDims down.toNat nDims).entry 0 (2 ^ nDims)).Perm
        (block t.entry 0 (2 ^ nDims)) ∧
      Ordered entryRank down (bitonicMerge (bitonicStages t nDims) nDims down.toNat nDims).entry 0
        (2 ^ nDims) ∧
      Plain (2 ^ nDims) (bitonicMerge (bitonicStages t nDims) nDims down.toNat nDims) := by
  obtain ⟨hstages, hplain⟩ := bitonicStages_stages ht
  obtain ⟨hmerged, hplain'⟩ := bitonicMerge_merged hplain down
  obtain ⟨hperm, hordered⟩ := sorts hstages hmerged
  exact ⟨hperm, hordered, hplain'⟩

/-! ### Tile after tile -/

/-- The running tile, when its better part has the greatest of the entries so far. -/
structure Running (nDims k : ℕ) (M : List (Fp32 × ℕ)) (t : Tile) : Prop where
  ordered : Ordered entryRank true t.entry 0 (2 ^ nDims)
  plain : Plain (2 ^ nDims) t
  top : IsTop entryRank k M (block t.entry 0 k)

theorem pairwise_of_ordered (h : Ordered entryRank true t.entry 0 (2 ^ nDims)) :
    (block t.entry 0 (2 ^ nDims)).Pairwise fun a b => entryRank b ≤ entryRank a :=
  h.pairwise.imp fun hab => by simpa using hab

variable {M : List (Fp32 × ℕ)}

/-- A sorted tile has the greatest of its entries in front. -/
theorem running_sorted {k : ℕ} (hk : k ≤ 2 ^ nDims)
    (hordered : Ordered entryRank true t.entry 0 (2 ^ nDims)) (hplain : Plain (2 ^ nDims) t)
    (hperm : (block t.entry 0 (2 ^ nDims)).Perm M) : Running nDims k M t := by
  refine ⟨hordered, hplain, ?_⟩
  rw [← block_take hk]
  exact isTop_take (pairwise_of_ordered hordered) hperm k

theorem addTile_first {k : ℕ} (last : Tile) (hk : k ≤ 2 ^ nDims) (ht : Plain (2 ^ nDims) t) :
    Running nDims k (block t.entry 0 (2 ^ nDims)) (addTile nDims true last t) := by
  obtain ⟨hperm, hordered, hplain⟩ := sorted_tile ht true
  exact running_sorted hk hordered hplain hperm

def halves (nDims : ℕ) (last t : Tile) : Tile :=
  let leftHalf (p : ℕ) : Bool := p < 2 ^ nDims / 2
  { x := fun p => plus (times (last.x p) (leftHalf p)) (times (t.x p) (!leftHalf p))
    ids := fun p => last.ids p * (leftHalf p).toNat + t.ids p * (1 - (leftHalf p).toNat) }

variable {last : Tile} {n : ℕ}

theorem halves_entry (hlast : Plain (2 ^ (n + 1)) last) (ht : Plain (2 ^ (n + 1)) t)
    (hp : p < 2 ^ (n + 1)) :
    (halves (n + 1) last t).entry p = if p < 2 ^ n then last.entry p else t.entry p := by
  have hhalf : 2 ^ (n + 1) / 2 = 2 ^ n := by rw [Nat.pow_succ, Nat.mul_div_cancel _ (by decide)]
  simp only [halves, Tile.entry, hhalf]
  by_cases h : p < 2 ^ n
  · simp only [h, decide_true, Bool.not_true, plus_times (hlast p hp), Bool.toNat_true, Nat.mul_one,
      Nat.sub_self, Nat.mul_zero, add_zero, if_true]
  · simp only [h, decide_false, Bool.not_false, times_plus (ht p hp), Bool.toNat_false, Nat.mul_one,
      Nat.sub_zero, Nat.mul_zero, zero_add, if_false]

theorem halves_spec (hlast : Plain (2 ^ (n + 1)) last) (ht : Plain (2 ^ (n + 1)) t) :
    block (halves (n + 1) last t).entry 0 (2 ^ n) = block last.entry 0 (2 ^ n) ∧
      block (halves (n + 1) last t).entry (2 ^ n) (2 ^ n) = block t.entry (2 ^ n) (2 ^ n) ∧
      Plain (2 ^ (n + 1)) (halves (n + 1) last t) := by
  have hpow : 2 ^ (n + 1) = 2 ^ n + 2 ^ n := by rw [Nat.pow_succ, mul_two]
  refine ⟨map_congr_left fun q hq => ?_, map_congr_left fun q hq => ?_, fun p hp => ?_⟩
  · have hq : q < 2 ^ n := mem_range.mp hq
    rw [zero_add, halves_entry hlast ht (by omega), if_pos hq]
  · have hq : q < 2 ^ n := mem_range.mp hq
    rw [halves_entry hlast ht (by omega), if_neg (by omega)]
  · have hx := congrArg Prod.fst (halves_entry hlast ht hp)
    rw [apply_ite Prod.fst] at hx
    change (halves (n + 1) last t).x p = if p < 2 ^ n then last.x p else t.x p at hx
    rw [hx]
    split
    · exact hlast p hp
    · exact ht p hp

theorem addTile_keeps (hlast : Running (n + 1) (2 ^ n) M last)
    (ht : Plain (2 ^ (n + 1)) t) :
    Running (n + 1) (2 ^ n) (M ++ block t.entry 0 (2 ^ (n + 1)))
      (addTile (n + 1) false last t) := by
  obtain ⟨hperm, hordered, hplain⟩ := sorted_tile ht false
  revert hperm hordered hplain
  generalize hasc : bitonicMerge (bitonicStages t (n + 1)) (n + 1) (Bool.toNat false) (n + 1) = asc
  intro hperm hordered hplain
  have hadd :
      addTile (n + 1) false last t = bitonicMerge (halves (n + 1) last asc) (n + 1)
      (Bool.toNat true) (n + 1) := by
    rw [← hasc]
    rfl
  have hpow : 2 ^ (n + 1) = 2 ^ n + 2 ^ n := by rw [Nat.pow_succ, mul_two]
  obtain ⟨hleft, hright, hnew⟩ := halves_spec hlast.plain hplain
  obtain ⟨hmerged, hmplain⟩ := bitonicMerge_merged hnew true
  rw [← hadd] at hmerged hmplain
  -- the halves run in opposite directions
  have holeft : Ordered entryRank true (halves (n + 1) last asc).entry 0 (2 ^ n) :=
    (hlast.ordered.left ((Nat.le_add_left (2 ^ n) (2 ^ n)).trans hpow.ge)).congr hleft.symm
  have horight : Ordered entryRank false (halves (n + 1) last asc).entry (0 + 2 ^ n) (2 ^ n) := by
    have hupper := hordered.right (m := 2 ^ n) (k := 2 ^ n) hpow.ge
    rw [zero_add] at hupper ⊢
    exact hupper.congr hright.symm
  have hdvd : 2 ^ (n + 1) ∣ 0 := dvd_zero _
  have hresult := hmerged.ordered hdvd (zero_add _).le (fun _ _ => rfl) holeft horight
  have hmperm := hmerged.perm hdvd (zero_add _).le
  have hsplit : block (halves (n + 1) last asc).entry 0 (2 ^ (n + 1)) =
      block last.entry 0 (2 ^ n) ++ block asc.entry (2 ^ n) (2 ^ n) := by
    rw [hpow, block_add, zero_add, hleft, hright]
  rw [hsplit] at hmperm
  refine ⟨hresult, hmplain, ?_⟩
  -- the upper half of the ascending tile has its greatest entries
  have hrev : IsTop entryRank (2 ^ n) (block t.entry 0 (2 ^ (n + 1)))
      ((block asc.entry 0 (2 ^ (n + 1))).reverse.take (2 ^ n)) := by
    refine isTop_take ?_ ((reverse_perm _).trans hperm) _
    rw [pairwise_reverse]
    exact hordered.pairwise.imp fun hab => by simpa using hab
  have htail :
      (block asc.entry 0 (2 ^ (n + 1))).reverse.take (2 ^ n) =
      (block asc.entry (2 ^ n) (2 ^ n)).reverse := by
    rw [hpow, block_add, zero_add, reverse_append,
      take_left' (by rw [length_reverse, length_block])]
  rw [htail] at hrev
  refine hlast.top.append hrev ?_
  have htop := isTop_take (pairwise_of_ordered hresult)
    (hmperm.trans (.append_left _ (reverse_perm _).symm)) (2 ^ n)
  rwa [block_take ((Nat.le_add_left (2 ^ n) (2 ^ n)).trans hpow.ge)] at htop

/-! ### The loop -/

def emptyEntry : Fp32 × ℕ := (emptyScore, 0)

theorem block_const {α : Type*} {f : ℕ → α} {o m : ℕ} {a : α} (h : ∀ q < m, f (o + q) = a) :
    block f o m = replicate m a := by
  rw [block, map_congr_left fun q hq => h q (mem_range.mp hq), map_const', length_range]

theorem block_split {f : ℕ → Fp32 × ℕ} {count m : ℕ} (hm : count ≤ m)
    (hf : ∀ b, count ≤ b → f b = emptyEntry) :
    block f 0 m = block f 0 count ++ replicate (m - count) emptyEntry := by
  obtain ⟨r, rfl⟩ := Nat.exists_eq_add_of_le hm
  rw [block_add, Nat.add_sub_cancel_left, block_const (o := 0 + count) fun q _ => hf _ (by omega)]

variable {count : ℕ} {load : ℕ → Tile} {f : ℕ → Fp32 × ℕ}

theorem load_block (hload : ∀ c p, p < 2 ^ nDims → (load (c * 2 ^ nDims)).entry p =
      f (c * 2 ^ nDims + p)) (c : ℕ) :
    block (load (c * 2 ^ nDims)).entry 0 (2 ^ nDims) = block f (c * 2 ^ nDims) (2 ^ nDims) := by
  refine map_congr_left fun q hq => ?_
  rw [zero_add, hload c q (mem_range.mp hq)]

theorem load_plain (hload : ∀ c p, p < 2 ^ nDims → (load (c * 2 ^ nDims)).entry p =
      f (c * 2 ^ nDims + p))
    (hf : ∀ b, (f b).1 ≠ negZero) (c : ℕ) : Plain (2 ^ nDims) (load (c * 2 ^ nDims)) := by
  intro p hp
  have hx : (load (c * 2 ^ nDims)).x p = (f (c * 2 ^ nDims + p)).1 :=
    congrArg Prod.fst (hload c p hp)
  rw [hx]
  exact hf _

theorem stream_running (hload : ∀ c p, p < 2 ^ (n + 1) → (load (c * 2 ^ (n + 1))).entry p =
      f (c * 2 ^ (n + 1) + p)) (hf : ∀ b, (f b).1 ≠ negZero) (c : ℕ) :
    Running (n + 1) (2 ^ n) (block f 0 ((c + 1) * 2 ^ (n + 1)))
      ((range (c + 1)).foldl (fun last c => addTile (n + 1) (c == 0) last (load (c * 2 ^ (n + 1))))
        emptyTile) := by
  induction c with
  | zero =>
    have hfirst :=
      addTile_first (k := 2 ^ n) emptyTile (Nat.pow_le_pow_right (by decide) (Nat.le_succ n))
      (load_plain hload hf 0)
    rw [load_block hload, Nat.zero_mul] at hfirst
    rw [zero_add, one_mul, range_one, foldl_cons, foldl_nil, Nat.zero_mul]
    exact hfirst
  | succ c ih =>
    rw [range_succ, foldl_append, add_mul (c + 1) 1, one_mul, block_add, zero_add]
    have hnext := addTile_keeps ih (load_plain hload hf (c + 1))
    rwa [load_block hload] at hnext

/-- What is in front after the loop: the greatest of the blocks, if they are in the better half or
in the only tile. -/
theorem stream_isTop {T : ℕ} (nDims count : ℕ) (load : ℕ → Tile) (f : ℕ → Fp32 × ℕ)
    (hload : ∀ c p, p < 2 ^ nDims → (load (c * 2 ^ nDims)).entry p = f (c * 2 ^ nDims + p))
    (hf : ∀ b, (f b).1 ≠ negZero)
    (hempty : ∀ b, count ≤ b → f b = emptyEntry) (hpos : 0 < T) (hT : T ≤ 2 ^ nDims)
    (hfit : 2 * T ≤ 2 ^ nDims ∨ count ≤ 2 ^ nDims) :
    ∃ m, IsTop entryRank T (block f 0 count ++ replicate m emptyEntry)
      (block (stream nDims count load).entry 0 T) ∧
      Plain (2 ^ nDims) (stream nDims count load) := by
  have hcover : count ≤ 0 + trips 0 count (2 ^ nDims) * 2 ^ nDims :=
    le_add_trips_mul (Nat.two_pow_pos nDims)
  unfold stream
  cases htrips : trips 0 count (2 ^ nDims) with
  | zero =>
    -- nothing was read
    have hcount : count = 0 := by
      rw [htrips] at hcover
      omega
    have hblock : block emptyTile.entry 0 T = block f 0 T :=
      map_congr_left fun q _ => (hempty (0 + q) (by omega)).symm
    refine ⟨T, ?_, fun p _ => show emptyScore ≠ negZero by decide⟩
    have hsplit := block_split (m := T) (show count ≤ T by omega) hempty
    rw [hcount] at hsplit ⊢
    rw [Nat.sub_zero] at hsplit
    change IsTop entryRank T _ (block emptyTile.entry 0 T)
    rw [hblock, ← hsplit]
    have hequal : (block f 0 T).Pairwise fun a b => entryRank b ≤ entryRank a := by
      rw [block_const fun q _ => hempty (0 + q) (by omega)]
      exact pairwise_replicate.mpr (.inr le_rfl)
    have htop := isTop_take hequal (.refl _) T
    rwa [take_of_length_le (length_block f 0 T).le] at htop
  | succ c =>
    refine ⟨(c + 1) * 2 ^ nDims - count, ?_⟩
    rw [← block_split (by rw [htrips] at hcover; omega) hempty]
    rcases hfit with hfit | hfit
    · cases nDims with
      | zero =>
        rw [pow_zero] at hfit
        omega
      | succ n =>
        have hrun := stream_running hload hf c
        have hle : T ≤ 2 ^ n := by
          rw [pow_succ'] at hfit
          omega
        refine ⟨?_, hrun.plain⟩
        rw [← block_take hle]
        exact hrun.top.take hle
    · -- one tile is enough
      have hc : c = 0 := by
        by_contra hne
        have hlt := add_mul_lt (a := 0) (n := count) (c := c) (Nat.two_pow_pos nDims)
          (by rw [htrips]; omega)
        have hmul := Nat.mul_le_mul_right (2 ^ nDims) (Nat.one_le_iff_ne_zero.mpr hne)
        omega
      have hfirst := addTile_first (k := T) emptyTile hT (load_plain hload hf 0)
      rw [load_block hload, Nat.zero_mul] at hfirst
      rw [hc, zero_add, one_mul, range_one, foldl_cons, foldl_nil, Nat.zero_mul]
      exact ⟨hfirst.top, hfirst.plain⟩

end FreeToken.MinimaxM3
