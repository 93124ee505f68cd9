import FreeToken.Kernel.MoeAlign
import FreeToken.Lib.CellCopies
import Mathlib.Algebra.Group.Action.Defs
import Mathlib.Algebra.Order.BigOperators.Ring.Finset
import Mathlib.Data.List.GetD

/-!
# Correctness of the block alignment

Both paths count the assignments of each expert (`rankIn_lanes`), and so find the same buckets of
blocks.  Their stores are within the buffers (`offset_le`, `offset_mul_le`), and the scatter fills
the buckets (`Aligned.of_scattered`).
-/

namespace FreeToken.MoeAlign

open List BucketScatter

variable {topkIds : List ℤ} {effectiveE blockSize numExperts : ℕ} {n e : ℕ}

/-! ### Counts -/

theorem laneExpert_eq_some :
    laneExpert topkIds effectiveE n = some e ↔ e < effectiveE ∧ topkIds[n]? = some (e : ℤ) := by
  rw [laneExpert]
  by_cases hn : n < topkIds.length
  · rw [getD_eq_getElem _ _ hn, getElem?_eq_getElem hn]
    by_cases hvalid : n < topkIds.length ∧ 0 ≤ topkIds[n] ∧ topkIds[n] < effectiveE
    · rw [if_pos hvalid]
      simp only [Option.some.injEq]
      omega
    · rw [if_neg hvalid]
      simp only [reduceCtorEq, Option.some.injEq, false_iff, not_and]
      omega
  · rw [if_neg fun h => hn h.1, getElem?_eq_none (Nat.le_of_not_lt hn)]
    simp

theorem lt_length_of_laneExpert (h : laneExpert topkIds effectiveE n = some e) :
    n < topkIds.length :=
  (List.getElem?_eq_some_iff.mp (laneExpert_eq_some.mp h).2).1

variable {lanes : List ℕ} {L : ℕ}

/-- Lanes in any order, as long as all ids have one, count the assignments of an expert. -/
theorem rankIn_lanes (hlanes : lanes.Perm (List.range L)) (hL : topkIds.length ≤ L)
    (he : e < effectiveE) :
    rankIn (laneExpert topkIds effectiveE) lanes e = topkIds.count (e : ℤ) := by
  obtain ⟨m, rfl⟩ := Nat.exists_eq_add_of_le hL
  rw [rankIn, hlanes.countP_eq, range_add, countP_append, countP_map]
  have htail :
      (List.range m).countP ((fun n => decide (laneExpert topkIds effectiveE n = some e)) ∘ fun x =>
        topkIds.length + x) = 0 := by
    refine countP_eq_zero.mpr fun x _ hx => ?_
    have hlt : topkIds.length + x < topkIds.length := lt_length_of_laneExpert (of_decide_eq_true hx)
    omega
  have hids : topkIds = (List.range topkIds.length).map fun n => topkIds.getD n (-1) := by
    refine ext_getElem (by simp) fun n hn _ => ?_
    rw [getElem_map, getElem_range, getD_eq_getElem _ _ hn]
  rw [htail, add_zero]
  conv_rhs => rw [hids, count_eq_countP, countP_map]
  refine countP_congr fun n hn => ?_
  have hn := List.mem_range.mp hn
  simp only [Function.comp_apply, decide_eq_true_eq, laneExpert_eq_some, he, true_and, beq_iff_eq,
    getElem?_eq_getElem hn, getD_eq_getElem _ _ hn, Option.some.injEq]

theorem le_nextPowerOf2 (n : ℕ) : n ≤ nextPowerOf2 n := Nat.le_pow_clog one_lt_two n

theorem histogram_eq {lanes : List ℕ} {f : ℕ → ℕ} (he : e < effectiveE) :
    histogram lanes (fun l => laneBin topkIds effectiveE (nextPowerOf2 (effectiveE + 1)) (f l)) e =
      rankIn (laneExpert topkIds effectiveE) (lanes.map f) e := by
  have hspare := le_nextPowerOf2 (effectiveE + 1)
  rw [histogram, rankIn, countP_map]
  refine countP_congr fun l _ => ?_
  cases h : laneExpert topkIds effectiveE (f l) with
  | none =>
    have hne : nextPowerOf2 (effectiveE + 1) - 1 ≠ e := by omega
    simp [laneBin, h, hne]
  | some e' => simp [laneBin, h]

/-! ### Blocks -/

variable (topkIds blockSize)

def blocks (e : ℕ) : ℕ := (topkIds.count (e : ℤ) + blockSize - 1) / blockSize

abbrev offset (e : ℕ) : ℕ := bucketStart (blocks topkIds blockSize) e

variable {topkIds blockSize}

theorem offset_succ :
    offset topkIds blockSize (e + 1) = offset topkIds blockSize e + blocks topkIds blockSize e :=
    bucketStart_succ

theorem count_le_blocks (hb : 0 < blockSize) :
    topkIds.count (e : ℤ) ≤ blocks topkIds blockSize e * blockSize := by
  have hdiv := Nat.div_add_mod' (topkIds.count (e : ℤ) + blockSize - 1) blockSize
  have hmod := Nat.mod_lt (topkIds.count (e : ℤ) + blockSize - 1) hb
  rw [blocks]
  omega

theorem blocks_mul_le :
    blocks topkIds blockSize e * blockSize ≤ topkIds.count (e : ℤ) + (blockSize - 1) :=
  (Nat.div_mul_le_self _ _).trans (by omega)

theorem blocks_le_count (hb : 0 < blockSize) :
    blocks topkIds blockSize e ≤ topkIds.count (e : ℤ) := by
  rw [blocks, ← Nat.lt_succ_iff, Nat.div_lt_iff_lt_mul hb, Nat.succ_mul]
  have := Nat.le_mul_of_pos_right (topkIds.count (e : ℤ)) hb
  omega

theorem sum_count_le (topkIds : List ℤ) (E : ℕ) :
    ∑ e ∈ Finset.range E, topkIds.count (e : ℤ) ≤ topkIds.length := by
  induction topkIds with
  | nil => simp
  | cons x topkIds ih =>
    have hone : ∑ e ∈ Finset.range E, (if x = (e : ℤ) then 1 else 0) ≤ 1 := by
      rw [Finset.sum_boole]
      refine Finset.card_le_one.mpr fun a ha b hb => ?_
      have ha := (Finset.mem_filter.mp ha).2
      have hb := (Finset.mem_filter.mp hb).2
      omega
    simp only [count_cons, beq_iff_eq, Finset.sum_add_distrib, length_cons]
    omega

theorem offset_le_length (hb : 0 < blockSize) (E : ℕ) :
    offset topkIds blockSize E ≤ topkIds.length :=
  (Finset.sum_le_sum fun _ _ => blocks_le_count hb).trans (sum_count_le topkIds E)

theorem offset_mul_le (hb : 0 < blockSize) (topkIds : List ℤ) (numExperts : ℕ) :
    offset topkIds blockSize (numExperts + 1) * blockSize ≤ maxNumTokensPadded topkIds blockSize
      numExperts := by
  rw [maxNumTokensPadded]
  split
  · exact Nat.mul_le_mul_right blockSize (offset_le_length hb _)
  · rw [offset, bucketStart, Finset.sum_mul]
    calc ∑ e ∈ Finset.range (numExperts + 1), blocks topkIds blockSize e * blockSize
        ≤ ∑ e ∈ Finset.range (numExperts + 1), (topkIds.count (e : ℤ) + (blockSize - 1)) :=
          Finset.sum_le_sum fun _ _ => blocks_mul_le
      _ = ∑ e ∈ Finset.range (numExperts + 1), topkIds.count (e : ℤ) + (numExperts + 1) *
        (blockSize - 1) := by
          rw [Finset.sum_add_distrib, Finset.sum_const, Finset.card_range, smul_eq_mul]
      _ ≤ topkIds.length + (numExperts + 1) * (blockSize - 1) :=
        Nat.add_le_add_right (sum_count_le topkIds _) _

theorem offset_le (hb : 0 < blockSize) (topkIds : List ℤ) (numExperts : ℕ) :
    offset topkIds blockSize (numExperts + 1) ≤
      divCeil (maxNumTokensPadded topkIds blockSize numExperts) blockSize := by
  rw [divCeil, Nat.le_div_iff_mul_le hb]
  have := offset_mul_le hb topkIds numExperts
  omega

/-! ### What both paths write -/

/-- The offsets, and the padded total behind them. -/
def cumsumOf (topkIds : List ℤ) (blockSize effectiveE : ℕ) : Buffer ℕ :=
  ⟨effectiveE + 1, fun e => if e ≤ effectiveE then some (offset topkIds blockSize e * blockSize)
    else none⟩

def totalOf (topkIds : List ℤ) (blockSize effectiveE : ℕ) : Buffer ℕ :=
  ⟨1, fun i => if i = 0 then some (offset topkIds blockSize effectiveE * blockSize) else none⟩

def expertIdsOf (topkIds : List ℤ) (blockSize effectiveE size : ℕ) : Buffer ℕ :=
  ⟨size, fun b => if b < offset topkIds blockSize effectiveE then some
    (bucketOf (blocks topkIds blockSize) effectiveE b) else none⟩

def laneBlocks (topkIds : List ℤ) (blockSize effectiveE le : ℕ) : ℕ :=
  if le < effectiveE then blocks topkIds blockSize le else 0

variable {H : ℕ}

theorem sum_laneBlocks (hH : effectiveE ≤ H) :
    ∑ le ∈ Finset.range H, laneBlocks topkIds blockSize effectiveE le = offset topkIds blockSize
      effectiveE := by
  simp only [laneBlocks]
  rw [← Finset.sum_filter, offset, bucketStart]
  refine Finset.sum_congr (Finset.ext fun le => ?_) fun _ _ => rfl
  rw [Finset.mem_filter, Finset.mem_range, Finset.mem_range]
  omega

theorem exclusive_laneBlocks (he : e < effectiveE) :
    exclusive (laneBlocks topkIds blockSize effectiveE) e = offset topkIds blockSize e := by
  rw [exclusive, Finset.sum_range_succ, Nat.add_sub_cancel, offset, bucketStart]
  refine Finset.sum_congr rfl fun i hi => if_pos ?_
  have := Finset.mem_range.mp hi
  omega

theorem store_cumsum (topkIds : List ℤ) (blockSize : ℕ) (hH : effectiveE ≤ H) :
    ∃ b, (Buffer.empty (effectiveE + 1)).storeLanes (List.range H) (fun le => le < effectiveE) id
        (fun le => exclusive (laneBlocks topkIds blockSize effectiveE) le * blockSize) = some b ∧
      b.store effectiveE (offset topkIds blockSize effectiveE * blockSize) =
        some (cumsumOf topkIds blockSize effectiveE) := by
  refine ⟨_, Buffer.storeLanes_eq (f := fun e => offset topkIds blockSize e * blockSize)
    (fun le _ hle => ?_) (fun le _ hle => ?_), (Buffer.store_eq (Nat.lt_succ_self effectiveE)).trans
    ?_⟩
  · exact Nat.lt_succ_of_lt (of_decide_eq_true hle)
  · rw [exclusive_laneBlocks (of_decide_eq_true hle)]
    rfl
  · rw [cumsumOf]
    congr 2
    funext e
    simp only [map_id, mem_filter, mem_range, decide_eq_true_eq, Buffer.cell_empty]
    by_cases heq : e = effectiveE
    · rw [if_pos heq, if_pos (by omega), heq]
    · by_cases he : e < effectiveE
      · rw [if_neg heq, if_pos ⟨by omega, he⟩, if_pos (by omega)]
      · rw [if_neg heq, if_neg (fun h => he h.2), if_neg (by omega)]

theorem store_total :
    (Buffer.empty 1).store 0 (offset topkIds blockSize effectiveE * blockSize) =
    some (totalOf topkIds blockSize effectiveE) := by
  rw [Buffer.store_eq Nat.one_pos]
  rfl

theorem load_cumsumOf (he : e ≤ effectiveE) :
    (cumsumOf topkIds blockSize effectiveE).load e =
    some (offset topkIds blockSize e * blockSize) :=
  (Buffer.load_eq (Nat.lt_succ_of_le he)).trans (if_pos he)

/-! ### The buckets -/

/-- The assignments of an expert fit in its blocks. -/
theorem regions (hb : 0 < blockSize) {size : ℕ}
    (hsize : offset topkIds blockSize effectiveE * blockSize ≤ size) :
    Regions effectiveE size (fun e => offset topkIds blockSize e * blockSize) fun e =>
      topkIds.count (e : ℤ) := by
  have hend :
      ∀ e e', e < e' → offset topkIds blockSize e * blockSize + topkIds.count (e : ℤ) ≤
      offset topkIds blockSize e' * blockSize := by
    intro e e' hlt
    have hstart :
        offset topkIds blockSize e + blocks topkIds blockSize e ≤ offset topkIds blockSize e' :=
        bucketStart_add_le hlt
    have hle := Nat.mul_le_mul_right blockSize hstart
    rw [add_mul] at hle
    exact (Nat.add_le_add_left (count_le_blocks hb) _).trans hle
  exact ⟨fun e e' hlt _ => hend e e' hlt, fun e he => (hend e effectiveE he).trans hsize⟩

/-- The result of the alignment: of the cells that were written, every assignment is in one, in the
region of its expert, and the sentinel is in every other cell before `limit`. -/
structure Aligned (topkIds : List ℤ) (blockSize effectiveE limit : ℕ) (s : Buffers) : Prop where
  cumsum : ∀ e ≤ effectiveE, s.cumsum.cell e = some (offset topkIds blockSize e * blockSize)
  numTokensPostPad : s.numTokensPostPad.cell 0 =
    some (offset topkIds blockSize effectiveE * blockSize)
  expertIds : ∀ e < effectiveE, ∀ b, offset topkIds blockSize e ≤ b →
    b < offset topkIds blockSize (e + 1) →
    s.expertIds.cell b = some e
  placed : ∀ e < effectiveE, ∀ n, topkIds[n]? = some (e : ℤ) → ∃ p, offset topkIds blockSize e *
    blockSize ≤ p ∧
    p < offset topkIds blockSize e * blockSize + topkIds.count (e : ℤ) ∧ s.sortedTokenIds.cell p =
      some n ∧
      ∀ p', s.sortedTokenIds.cell p' = some n → p' = p
  rest : ∀ p < limit, s.sortedTokenIds.cell p = some topkIds.length ∨
    ∃ n e, e < effectiveE ∧ topkIds[n]? = some (e : ℤ) ∧ s.sortedTokenIds.cell p = some n

theorem Aligned.mono {limit limit' : ℕ} {s : Buffers}
    (h : Aligned topkIds blockSize effectiveE limit s) (hle : limit' ≤ limit) :
    Aligned topkIds blockSize effectiveE limit' s :=
  { h with rest := fun p hp => h.rest p (hp.trans_le hle) }

/-- The scatter over a buffer of sentinels. -/
theorem Aligned.of_scattered {limit size : ℕ} (hlanes : lanes.Perm (List.range L))
    (hL : topkIds.length ≤ L) {fill dest : Buffer ℕ} {s : Buffer ℕ × Buffer ℕ}
    (hdest : ∀ p x, dest.cell p = some x → x = topkIds.length)
    (hlimit : ∀ p < limit, dest.cell p = some topkIds.length)
    (hscattered : Scattered (laneExpert topkIds effectiveE) effectiveE
      (fun e => offset topkIds blockSize e * blockSize) fill dest
      lanes s) :
    Aligned topkIds blockSize effectiveE limit
      ⟨s.2, expertIdsOf topkIds blockSize effectiveE size, totalOf topkIds blockSize effectiveE,
        cumsumOf topkIds blockSize effectiveE, s.1⟩ where
  cumsum e he := if_pos he
  numTokensPostPad := rfl
  expertIds e he b hle hlt := by
    have hb' : b < offset topkIds blockSize effectiveE := hlt.trans_le (bucketStart_mono he)
    exact (if_pos hb').trans (by rw [bucketOf_eq he ⟨hle, hlt⟩])
  placed e he n hn := by
    have hkey : laneExpert topkIds effectiveE n = some e := laneExpert_eq_some.mpr ⟨he, hn⟩
    have hlen := lt_length_of_laneExpert hkey
    obtain ⟨r, hr, hcell⟩ :=
      hscattered.placed n (hlanes.mem_iff.mpr (List.mem_range.mpr (by omega))) e he hkey
    have hr' := hr
    rw [rankIn_lanes hlanes hL he] at hr'
    refine ⟨_, Nat.le_add_right _ r, Nat.add_lt_add_left hr' _, hcell, fun p' hp' => ?_⟩
    -- a cell that no lane took has a sentinel
    by_cases htaken : Taken (laneExpert topkIds effectiveE) effectiveE
      (fun e => offset topkIds blockSize e * blockSize) lanes p'
    · exact hscattered.unique p' _ n htaken ⟨e, he, r, hr, rfl⟩ hp' hcell
    · rw [hscattered.free p' htaken] at hp'
      have := hdest p' n hp'
      omega
  rest p hp := by
    by_cases htaken : Taken (laneExpert topkIds effectiveE) effectiveE
      (fun e => offset topkIds blockSize e * blockSize) lanes p
    · obtain ⟨e, he, r, hr, rfl⟩ := htaken
      obtain ⟨n, -, hkey, hcell⟩ := hscattered.taken e he r hr
      exact .inr ⟨n, e, he, (laneExpert_eq_some.mp hkey).2, hcell⟩
    · exact .inl ((hscattered.free p htaken).trans (hlimit p hp))

/-! ### The small path -/

variable {size : ℕ}

theorem store_expertIds (hH : effectiveE ≤ H) (hsize : offset topkIds blockSize effectiveE ≤ size) :
    (List.range ((Finset.range H).sup (laneBlocks topkIds blockSize effectiveE))).foldlM
    (fun ids j =>
        ids.storeLanes (List.range H)
          (fun le => le < effectiveE && j < laneBlocks topkIds blockSize effectiveE le)
          (fun le => exclusive (laneBlocks topkIds blockSize effectiveE) le + j) id)
            (Buffer.empty size) =
      some (expertIdsOf topkIds blockSize effectiveE size) := by
  -- each write stays in the blocks of its expert
  have hwrites :
      ∀ j, ∀ le ∈ (List.range H).filter fun le => le < effectiveE && j <
      laneBlocks topkIds blockSize effectiveE le,
      le < effectiveE ∧ exclusive (laneBlocks topkIds blockSize effectiveE) le + j =
        offset topkIds blockSize le + j ∧
        offset topkIds blockSize le + j < offset topkIds blockSize (le + 1) := by
    intro j le hle
    have hmask := (List.mem_filter.mp hle).2
    rw [Bool.and_eq_true, decide_eq_true_eq, decide_eq_true_eq] at hmask
    obtain ⟨hlt, hj⟩ := hmask
    rw [laneBlocks, if_pos hlt] at hj
    rw [exclusive_laneBlocks hlt, offset_succ]
    exact ⟨hlt, rfl, Nat.add_lt_add_left hj _⟩
  refine (Buffer.storeAll_flatMap _ fun j => ((List.range H).filter fun le =>
    le < effectiveE && j < laneBlocks topkIds blockSize effectiveE le).map fun le =>
      (exclusive (laneBlocks topkIds blockSize effectiveE) le + j, id le)).trans ?_
  rw [Buffer.storeAll_eq (f := bucketOf (blocks topkIds blockSize) effectiveE)]
  · rw [expertIdsOf]
    congr 2
    funext b
    refine if_congr ?_ rfl rfl
    simp only [mem_map, mem_flatMap, mem_range]
    constructor
    · rintro ⟨w, ⟨j, -, le, hle, rfl⟩, rfl⟩
      obtain ⟨hlt, heq, hblock⟩ := hwrites j le hle
      exact heq ▸ hblock.trans_le (bucketStart_mono hlt)
    · intro hb
      obtain ⟨e, he, hle, hlt⟩ := exists_bucket hb
      obtain ⟨j, rfl⟩ := Nat.exists_eq_add_of_le hle
      rw [bucketStart_succ] at hlt
      have hj : j < laneBlocks topkIds blockSize effectiveE e := by
        rw [laneBlocks, if_pos he]
        omega
      have hsup :
          laneBlocks topkIds blockSize effectiveE e ≤
          (Finset.range H).sup (laneBlocks topkIds blockSize effectiveE) :=
        Finset.le_sup (Finset.mem_range.mpr (by omega))
      refine ⟨_,
        ⟨j, hj.trans_le hsup, e,
        List.mem_filter.mpr ⟨List.mem_range.mpr (by omega), by simp [he, hj]⟩, rfl⟩, ?_⟩
      exact congrArg (· + j) (exclusive_laneBlocks he)
  · intro w hw
    obtain ⟨j, -, hw⟩ := List.mem_flatMap.mp hw
    obtain ⟨le, hle, rfl⟩ := List.mem_map.mp hw
    obtain ⟨hlt, heq, hblock⟩ := hwrites j le hle
    exact heq ▸ (hblock.trans_le (bucketStart_mono hlt)).trans_le hsize
  · intro w hw
    obtain ⟨j, -, hw⟩ := List.mem_flatMap.mp hw
    obtain ⟨le, hle, rfl⟩ := List.mem_map.mp hw
    obtain ⟨hlt, heq, hblock⟩ := hwrites j le hle
    exact (heq ▸ bucketOf_eq hlt ⟨Nat.le_add_right _ j, hblock⟩).symm

/-- Sentinels in the first `npp` cells. -/
def sentinels (v npp size : ℕ) : Buffer ℕ := ⟨size, fun p => if p < npp then some v else none⟩

theorem store_sentinels {npp v : ℕ} (hsize : npp ≤ size) :
    (range' 0 ((npp + 1023) / 1024) 1024).foldlM (fun sorted s =>
      sorted.storeLanes (List.range 1024) (fun fo => s + fo < npp) (fun fo => s + fo) fun _ => v)
        (Buffer.empty size) = some (sentinels v npp size) := by
  refine (Buffer.storeAll_flatMap _ fun s =>
    ((List.range 1024).filter fun fo => s + fo < npp).map fun fo => (s + fo, v)).trans ?_
  rw [Buffer.storeAll_eq (f := fun _ => v)]
  · rw [sentinels]
    congr 2
    funext p
    refine if_congr ?_ rfl rfl
    simp only [mem_map, mem_flatMap, mem_filter, mem_range, mem_range', decide_eq_true_eq]
    constructor
    · rintro ⟨w, ⟨s, -, fo, ⟨-, hlt⟩, rfl⟩, rfl⟩
      exact hlt
    · intro hp
      refine ⟨(p, v),
        ⟨p / 1024 * 1024, ⟨p / 1024, by omega, by omega⟩, p % 1024, ⟨by omega, by omega⟩, ?_⟩, rfl⟩
      rw [Nat.div_add_mod']
  · intro w hw
    obtain ⟨s, -, hw⟩ := List.mem_flatMap.mp hw
    obtain ⟨fo, hfo, rfl⟩ := List.mem_map.mp hw
    exact (of_decide_eq_true (List.mem_filter.mp hfo).2 : s + fo < npp).trans_le hsize
  · intro w hw
    obtain ⟨s, -, hw⟩ := List.mem_flatMap.mp hw
    obtain ⟨fo, -, rfl⟩ := List.mem_map.mp hw
    rfl

theorem smallBlocks_eq (hb : 0 < blockSize) :
    smallBlocks topkIds effectiveE blockSize = laneBlocks topkIds blockSize effectiveE := by
  funext le
  rw [smallBlocks, laneBlocks]
  by_cases hle : le < effectiveE
  · have hcount :=
      @histogram_eq topkIds effectiveE le (List.range (nextPowerOf2 topkIds.length)) id hle
    rw [map_id, rankIn_lanes (List.Perm.refl _) (le_nextPowerOf2 _) hle] at hcount
    rw [if_pos hle, if_pos hle, blocks, ← hcount]
    rfl
  · rw [if_neg hle, if_neg hle]
    exact Nat.div_eq_of_lt (by omega)

/-- The keys of the lanes, and the counters that the scatter begins with. -/
theorem exists_lanes (hb : 0 < blockSize) (hlanes : lanes.Perm (List.range L))
    (hL : topkIds.length ≤ L)
    (fill dest : Buffer ℕ) (hdest : offset topkIds blockSize effectiveE * blockSize ≤ dest.size)
    (hfill : effectiveE ≤ fill.size ∧ ∀ e < effectiveE, fill.cell e = some 0) :
    ∃ s, lanes.foldlM
      (scatterStep (laneExpert topkIds effectiveE) (cumsumOf topkIds blockSize effectiveE))
      (fill, dest) = some s ∧
      Scattered (laneExpert topkIds effectiveE) effectiveE
        (fun e => offset topkIds blockSize e * blockSize) fill dest lanes s :=
  exists_scatter (regions hb hdest) (fun _ he => load_cumsumOf he.le) hfill
    (fun _ _ _ hkey => (laneExpert_eq_some.mp hkey).1)
    (fun _ he => (rankIn_lanes hlanes hL he).le) (hlanes.nodup_iff.mpr nodup_range)

theorem zeros_fill :
    effectiveE ≤ (Buffer.zeros effectiveE).size ∧ ∀ e < effectiveE, (Buffer.zeros effectiveE).cell
    e = some 0 :=
  ⟨le_rfl, fun _ he => if_pos he⟩

theorem store_zeros (hH : effectiveE ≤ H) :
    (Buffer.empty effectiveE).storeLanes (List.range H) (fun le => le < effectiveE) id
    (fun _ => 0) = some (Buffer.zeros effectiveE) := by
  refine (Buffer.storeLanes_eq (f := fun _ => 0) (fun le _ hle => ?_) fun _ _ _ => rfl).trans ?_
  · exact of_decide_eq_true hle
  rw [Buffer.zeros]
  congr 2
  funext i
  refine if_congr ?_ rfl rfl
  simp only [map_id, mem_filter, mem_range, decide_eq_true_eq]
  omega

/-- The result of a path: the buffers that do not depend on the order of the lanes, and an aligned
arrangement. -/
structure Result (topkIds : List ℤ) (blockSize numExperts limit : ℕ) (s : Buffers) : Prop where
  cumsum : s.cumsum = cumsumOf topkIds blockSize (numExperts + 1)
  numTokensPostPad : s.numTokensPostPad = totalOf topkIds blockSize (numExperts + 1)
  expertIds : s.expertIds =
    expertIdsOf topkIds blockSize (numExperts + 1)
      (divCeil (maxNumTokensPadded topkIds blockSize numExperts) blockSize)
  aligned : Aligned topkIds blockSize (numExperts + 1) limit s

theorem exists_moeAlignSmall (numExperts : ℕ) (hb : 0 < blockSize)
    (hlanes : lanes.Perm (List.range (nextPowerOf2 topkIds.length))) :
    ∃ s, moeAlignSmall topkIds (numExperts + 1) blockSize lanes
      (allocate topkIds blockSize numExperts) = some s ∧
      Result topkIds blockSize numExperts (offset topkIds blockSize (numExperts + 1) * blockSize)
        s := by
  have hH : numExperts + 1 ≤ nextPowerOf2 (numExperts + 1 + 1) :=
    (Nat.le_succ _).trans (le_nextPowerOf2 _)
  obtain ⟨b, hstore, hcumsum⟩ := store_cumsum topkIds blockSize hH
  have hsize := offset_mul_le hb topkIds numExperts
  obtain ⟨s, hs, hscattered⟩ := exists_lanes hb hlanes (le_nextPowerOf2 _) (.zeros (numExperts + 1))
    (sentinels topkIds.length (offset topkIds blockSize (numExperts + 1) * blockSize)
      (maxNumTokensPadded topkIds blockSize numExperts)) hsize zeros_fill
  refine ⟨⟨s.2, expertIdsOf topkIds blockSize (numExperts + 1) _, totalOf topkIds blockSize
    (numExperts + 1), cumsumOf topkIds blockSize (numExperts + 1), s.1⟩, ?_, rfl, rfl, rfl, ?_⟩
  · simp only [moeAlignSmall, allocate, smallBlocks_eq hb, sum_laneBlocks hH, hstore, hcumsum,
      store_total, store_zeros hH, store_expertIds hH (offset_le hb topkIds numExperts),
      store_sentinels hsize, hs, Option.bind_eq_bind, Option.bind_some]
    rfl
  · refine Aligned.of_scattered hlanes (le_nextPowerOf2 _) (fun p x hp => ?_)
      (fun p hp => if_pos hp) hscattered
    rw [sentinels] at hp
    dsimp only at hp
    split at hp
    · exact (Option.some.inj hp).symm
    · cases hp

/-! ### Counting in programs -/

def lanesOf (pid : ℕ) : List ℕ := range' (pid * blockLanes) blockLanes

theorem map_offs (pid : ℕ) :
    (List.range blockLanes).map (fun l => pid * blockLanes + l) = lanesOf pid := by
  rw [lanesOf, range'_eq_map_range]

variable {programs : List ℕ}

/-- The lanes of all programs. -/
theorem perm_lanes {G : ℕ} (hprograms : programs.Perm (List.range G)) :
    (programs.flatMap lanesOf).Perm (List.range (G * blockLanes)) := by
  refine (hprograms.flatMap_right lanesOf).trans ?_
  have hrange := range'_mul 0 G blockLanes
  rw [Nat.zero_mul, ← range_eq_range', ← range_eq_range'] at hrange
  rw [hrange]
  exact List.Perm.refl _

theorem mem_filter_offs {pid p : ℕ} {N : ℕ} :
    p ∈ ((List.range blockLanes).filter fun l => pid * blockLanes + l < N).map
      (fun l => pid * blockLanes + l) ↔
      p < N ∧ p ∈ lanesOf pid := by
  rw [← map_offs]
  simp only [mem_map, mem_filter, decide_eq_true_eq]
  constructor
  · rintro ⟨l, ⟨hl, hlt⟩, rfl⟩
    exact ⟨hlt, l, hl, rfl⟩
  · rintro ⟨hlt, l, hl, rfl⟩
    exact ⟨l, ⟨hl, hlt⟩, rfl⟩

structure Counted (topkIds : List ℤ) (effectiveE sortedNumel : ℕ) (programs : List ℕ)
    (s : CountState) : Prop where
  sorted : s.sorted =
    ⟨sortedNumel, fun p => if p < sortedNumel ∧ p ∈ programs.flatMap lanesOf then some
      topkIds.length else none⟩
  fillCounter : s.fillCounter =
    ⟨effectiveE, fun e => if e < effectiveE ∧ e ∈ programs.flatMap lanesOf then some 0 else none⟩
  counts : s.counts = ⟨effectiveE, fun e =>
    if e < effectiveE then some
      (rankIn (laneExpert topkIds effectiveE) (programs.flatMap lanesOf) e) else none⟩

theorem mem_lanes_append {pid p : ℕ} :
    p ∈ (programs ++ [pid]).flatMap lanesOf ↔ p ∈ programs.flatMap lanesOf ∨
      p ∈ lanesOf pid := by simp

theorem store_program (N v pid : ℕ) (programs : List ℕ) :
    (⟨N, fun p => if p < N ∧ p ∈ programs.flatMap lanesOf then some v else none⟩ : Buffer
      ℕ).storeLanes (List.range blockLanes)
        (fun l => pid * blockLanes + l < N) (fun l => pid * blockLanes + l) (fun _ => v) =
      some ⟨N, fun p => if p < N ∧ p ∈ (programs ++ [pid]).flatMap lanesOf then some v
        else none⟩ := by
  refine (Buffer.storeLanes_eq (f := fun _ => v) (fun l _ hl => of_decide_eq_true hl) fun _ _ _ =>
    rfl).trans ?_
  congr 2
  funext p
  by_cases hnew : p ∈
    ((List.range blockLanes).filter fun l => pid * blockLanes + l < N).map fun l =>
    pid * blockLanes + l
  · obtain ⟨hlt, hmem⟩ := mem_filter_offs.mp hnew
    rw [if_pos hnew, if_pos ⟨hlt, mem_lanes_append.mpr (.inr hmem)⟩]
  · rw [if_neg hnew]
    refine if_congr
      (and_congr_right fun hlt => ⟨fun hold => mem_lanes_append.mpr (.inl hold), fun hold => ?_⟩)
      rfl rfl
    exact (mem_lanes_append.mp hold).resolve_right fun hmem =>
      hnew (mem_filter_offs.mpr ⟨hlt, hmem⟩)

theorem add_program (pid : ℕ) (programs : List ℕ) :
    (⟨effectiveE, fun e => if e < effectiveE then
        some (rankIn (laneExpert topkIds effectiveE) (programs.flatMap lanesOf) e)
          else none⟩ : Buffer ℕ).addLanes
        (List.range (nextPowerOf2 (effectiveE + 1)))
        (fun le => le < effectiveE && 0 < histogram (List.range blockLanes)
          (fun l => laneBin topkIds effectiveE (nextPowerOf2 (effectiveE + 1))
            (pid * blockLanes + l)) le)
        (histogram (List.range blockLanes)
          fun l => laneBin topkIds effectiveE (nextPowerOf2 (effectiveE + 1))
            (pid * blockLanes + l)) =
      some ⟨effectiveE, fun e => if e < effectiveE then
        some (rankIn (laneExpert topkIds effectiveE) ((programs ++ [pid]).flatMap lanesOf) e)
          else none⟩ := by
  have hspare := le_nextPowerOf2 (effectiveE + 1)
  have hadd :
      ∀ e < effectiveE, rankIn (laneExpert topkIds effectiveE) ((programs ++ [pid]).flatMap lanesOf)
      e = rankIn (laneExpert topkIds effectiveE) (programs.flatMap lanesOf) e +
        histogram (List.range blockLanes)
        (fun l => laneBin topkIds effectiveE (nextPowerOf2 (effectiveE + 1)) (pid * blockLanes + l))
          e := by
    intro e he
    rw [histogram_eq he, map_offs, flatMap_append, flatMap_singleton, rankIn, countP_append]
    rfl
  refine (Buffer.addLanes_eq
    (g := rankIn (laneExpert topkIds effectiveE) (programs.flatMap lanesOf)) nodup_range
    fun le _ hle => ?_).trans ?_
  · have hle := of_decide_eq_true (Bool.and_eq_true_iff.mp hle).1
    exact ⟨hle, if_pos hle⟩
  · congr 2
    funext e
    simp only [mem_filter, mem_range, Bool.and_eq_true, decide_eq_true_eq]
    by_cases he : e < effectiveE
    · rw [if_pos he, if_pos he, hadd e he]
      -- a program without the expert adds nothing to its counter
      split
      · rfl
      · congr 1
        omega
    · rw [if_neg fun h => he h.2.1, if_neg he, if_neg he]

theorem Counted.step {sortedNumel : ℕ} {programs : List ℕ} {s : CountState}
    (h : Counted topkIds effectiveE sortedNumel programs s) (pid : ℕ) :
    ∃ s', fillAndCount topkIds effectiveE sortedNumel (nextPowerOf2 (effectiveE + 1)) s pid =
      some s' ∧
      Counted topkIds effectiveE sortedNumel (programs ++ [pid]) s' := by
  refine ⟨⟨_, _, _⟩, ?_, ⟨rfl, rfl, rfl⟩⟩
  simp only [fillAndCount, h.sorted, h.fillCounter, h.counts, store_program, add_program,
    Option.bind_eq_bind, Option.bind_some]
  rfl

theorem exists_fillAndCount (topkIds : List ℤ) (effectiveE sortedNumel : ℕ) (programs : List ℕ) :
    ∃ s, programs.foldlM
      (fillAndCount topkIds effectiveE sortedNumel (nextPowerOf2 (effectiveE + 1)))
        ⟨.empty sortedNumel, .empty effectiveE, .zeros effectiveE⟩ = some s ∧
          Counted topkIds effectiveE sortedNumel programs s := by
  induction programs using reverseRecOn with
  | nil => exact ⟨_, rfl, ⟨by simp [Buffer.empty], by simp [Buffer.empty], rfl⟩⟩
  | append_singleton programs pid ih =>
    obtain ⟨s, hs, h⟩ := ih
    obtain ⟨s', hs', h'⟩ := h.step pid
    exact ⟨s', by rw [foldlM_append, hs, Option.bind_eq_bind, Option.bind_some]; simp [hs'], h'⟩

theorem Counted.all {sortedNumel G : ℕ} {s : CountState}
    (h : Counted topkIds effectiveE sortedNumel programs s)
    (hprograms : programs.Perm (List.range G)) (hsorted : sortedNumel ≤ G * blockLanes)
    (hE : effectiveE ≤ G * blockLanes) (hids : topkIds.length ≤ G * blockLanes) :
    s.sorted = sentinels topkIds.length sortedNumel sortedNumel ∧
      s.fillCounter = .zeros effectiveE ∧
      s.counts = ⟨effectiveE, fun e => if e < effectiveE then some (topkIds.count (e : ℤ))
        else none⟩ := by
  have hperm := perm_lanes hprograms
  have hmem : ∀ p, p ∈ programs.flatMap lanesOf ↔ p < G * blockLanes :=
    fun p => hperm.mem_iff.trans mem_range
  refine ⟨h.sorted.trans ?_, h.fillCounter.trans ?_, h.counts.trans ?_⟩
  · rw [sentinels]
    congr 1
    funext p
    refine if_congr ?_ rfl rfl
    rw [hmem]
    omega
  · rw [Buffer.zeros]
    congr 1
    funext e
    refine if_congr ?_ rfl rfl
    rw [hmem]
    omega
  · congr 1
    funext e
    by_cases he : e < effectiveE
    · rw [if_pos he, if_pos he, rankIn_lanes hperm hids he]
    · rw [if_neg he, if_neg he]

/-! ### The other kernels of the large path -/

theorem cumsumExperts_eq :
    cumsumExperts effectiveE blockSize
      ⟨effectiveE, fun e => if e < effectiveE then some (topkIds.count (e : ℤ)) else none⟩
        (.empty (effectiveE + 1)) (.empty 1) =
      some (cumsumOf topkIds blockSize effectiveE, totalOf topkIds blockSize effectiveE) := by
  have hH := le_nextPowerOf2 effectiveE
  obtain ⟨c, hload, hc⟩ := Buffer.loadLanes_eq (List.range (nextPowerOf2 effectiveE))
    (fun lane => lane < effectiveE) 0
    (b := ⟨effectiveE, fun e => if e < effectiveE then some (topkIds.count (e : ℤ)) else none⟩)
    (f := fun e => topkIds.count (e : ℤ)) fun l _ hl => by
      have hl := of_decide_eq_true hl
      exact (Buffer.load_eq hl).trans (if_pos hl)
  have hnblk : (fun lane => if lane < effectiveE then (c lane + blockSize - 1) / blockSize else 0) =
      laneBlocks topkIds blockSize effectiveE := by
    funext lane
    rw [laneBlocks]
    by_cases hlane : lane < effectiveE
    · rw [if_pos hlane, if_pos hlane, hc lane (List.mem_range.mpr (by omega)),
        if_pos (decide_eq_true hlane), blocks]
    · rw [if_neg hlane, if_neg hlane]
  obtain ⟨b, hstore, hcumsum⟩ := store_cumsum topkIds blockSize hH
  simp only [cumsumExperts, hload, hnblk, sum_laneBlocks hH, hstore, hcumsum, store_total,
    Option.bind_eq_bind, Option.bind_some]
  rfl

/-- What the search knows after `k` steps: its bounds are around the last bucket that begins at `b`
or before. -/
structure Narrowed (topkIds : List ℤ) (blockSize effectiveE b k : ℕ) (s : ℕ × ℕ) : Prop where
  le : s.1 ≤ s.2
  hi_le : s.2 ≤ effectiveE
  below : ∀ e < s.1, offset topkIds blockSize e ≤ b
  above : ∀ e, s.2 ≤ e → e ≤ effectiveE → b < offset topkIds blockSize e
  width : s.2 - s.1 ≤ effectiveE / 2 ^ k

theorem Narrowed.step {b k : ℕ} {s : ℕ × ℕ} (h : Narrowed topkIds blockSize effectiveE b k s)
    (hb : 0 < blockSize) :
    ∃ s', searchStep blockSize (cumsumOf topkIds blockSize effectiveE) b s = some s' ∧
      Narrowed topkIds blockSize effectiveE b (k + 1) s' := by
  obtain ⟨hle, hhi, hbelow, habove, hwidth⟩ := h
  have hload := @load_cumsumOf topkIds effectiveE blockSize ((s.1 + s.2) / 2) (by omega)
  have hhalf :
    effectiveE / 2 ^ (k + 1) = effectiveE / 2 ^ k /
    2 := by rw [Nat.pow_succ, Nat.div_div_eq_div_mul]
  simp only [searchStep, hload, Option.bind_eq_bind, Option.bind_some, Nat.mul_div_cancel _ hb]
  by_cases hgo : offset topkIds blockSize ((s.1 + s.2) / 2) ≤ b
  · have hlt : (s.1 + s.2) / 2 < s.2 := by
      by_contra hnot
      have := habove ((s.1 + s.2) / 2) (by omega) (by omega)
      omega
    refine ⟨_, if_pos hgo, by dsimp only; omega, hhi, fun e he => ?_, habove, by dsimp only; omega⟩
    exact (bucketStart_mono (Nat.le_of_lt_succ he)).trans hgo
  · refine ⟨_, if_neg hgo, by dsimp only; omega, by dsimp only; omega, hbelow, fun e he _ =>
      ?_, by dsimp only; omega⟩
    exact (Nat.lt_of_not_le hgo).trans_le (bucketStart_mono he)

theorem exists_search {b : ℕ} (hb : 0 < blockSize) (hlt : b < offset topkIds blockSize effectiveE)
    (k : ℕ) :
    ∃ s, (List.range k).foldlM
      (fun s _ => searchStep blockSize (cumsumOf topkIds blockSize effectiveE) b s)
      (0, effectiveE) = some s ∧
      Narrowed topkIds blockSize effectiveE b k s := by
  induction k with
  | zero =>
    refine ⟨_, rfl, Nat.zero_le _, le_rfl, fun e he => absurd he (Nat.not_lt_zero e),
      fun e he he' => ?_, by simp⟩
    rwa [le_antisymm he' he]
  | succ k ih =>
    obtain ⟨s, hs, h⟩ := ih
    obtain ⟨s', hs', h'⟩ := h.step hb
    refine ⟨s', ?_, h'⟩
    rw [range_succ, foldlM_append, hs, Option.bind_eq_bind, Option.bind_some]
    simp [hs']

/-- The steps suffice: the search ends behind the bucket of the block. -/
theorem search_eq {b : ℕ} (hb : 0 < blockSize) (hlt : b < offset topkIds blockSize effectiveE) :
    ∃ s, (List.range effectiveE.size).foldlM
      (fun s _ => searchStep blockSize (cumsumOf topkIds blockSize effectiveE) b s)
        (0, effectiveE) = some s ∧ 0 < s.1 ∧
        s.1 - 1 = bucketOf (blocks topkIds blockSize) effectiveE b := by
  obtain ⟨s, hs, hle, hhi, hbelow, habove, hwidth⟩ := exists_search hb hlt effectiveE.size
  rw [Nat.div_eq_of_lt (Nat.lt_size_self effectiveE)] at hwidth
  have hpos : 0 < s.1 := by
    by_contra hzero
    exact absurd (habove 0 (by omega) (Nat.zero_le _)) (Nat.not_lt_zero b)
  exact ⟨s, hs, hpos,
    (bucketOf_eq (by omega) ⟨hbelow _ (by omega), habove _ (by omega) (by omega)⟩).symm⟩

theorem fillExpertIds_eq (hb : 0 < blockSize) {size : ℕ} (hlanes : lanes.Perm (List.range L))
    (hsize : offset topkIds blockSize effectiveE ≤ size) (hL : size ≤ L) :
    fillExpertIds effectiveE blockSize lanes (cumsumOf topkIds blockSize effectiveE)
      (totalOf topkIds blockSize effectiveE)
      (.empty size) = some (expertIdsOf topkIds blockSize effectiveE size) := by
  have hstep :
      fillExpertId effectiveE blockSize (cumsumOf topkIds blockSize effectiveE)
      (offset topkIds blockSize effectiveE) =
      fun ids b => ids.storeAll (if b < offset topkIds blockSize effectiveE then
        [(b, bucketOf (blocks topkIds blockSize) effectiveE b)] else []) := by
    funext ids b
    rw [fillExpertId]
    by_cases hlt : b < offset topkIds blockSize effectiveE
    · obtain ⟨s, hs, -, heq⟩ := search_eq hb hlt
      rw [if_pos hlt, if_pos hlt, hs, Option.bind_eq_bind, Option.bind_some, heq]
      simp [Buffer.storeAll]
    · rw [if_neg hlt, if_neg hlt]
      rfl
  have hload :
      (totalOf topkIds blockSize effectiveE).load 0 =
      some (offset topkIds blockSize effectiveE * blockSize) := rfl
  -- what all threads write together, in whichever order they run
  have hmem : ∀ w, w ∈ (lanes.flatMap fun b => if b < offset topkIds blockSize effectiveE then
      [(b, bucketOf (blocks topkIds blockSize) effectiveE b)] else []) ↔
        w.1 < offset topkIds blockSize effectiveE ∧
          w.2 = bucketOf (blocks topkIds blockSize) effectiveE w.1 := by
    intro w
    rw [mem_flatMap]
    constructor
    · rintro ⟨b, -, hw⟩
      split at hw
      · obtain rfl := mem_singleton.mp hw
        exact ⟨‹_›, rfl⟩
      · cases hw
    · rintro ⟨hlt, heq⟩
      refine ⟨w.1, hlanes.mem_iff.mpr (List.mem_range.mpr (by omega)), ?_⟩
      rw [if_pos hlt, ← heq]
      exact mem_singleton_self w
  rw [fillExpertIds, hload, Option.bind_eq_bind, Option.bind_some, Nat.mul_div_cancel _ hb, hstep,
    Buffer.storeAll_flatMap, Buffer.storeAll_eq
    (fun w hw => (((hmem w).mp hw).1.trans_le hsize : w.1 < size)) fun w hw =>
    ((hmem w).mp hw).2, expertIdsOf]
  congr 2
  funext b
  refine if_congr ?_ rfl rfl
  rw [mem_map]
  constructor
  · rintro ⟨w, hw, rfl⟩
    exact ((hmem w).mp hw).1
  · exact fun hlt =>
      ⟨(b, bucketOf (blocks topkIds blockSize) effectiveE b), (hmem _).mpr ⟨hlt, rfl⟩, rfl⟩

/-! ### The call -/

theorem le_divCeil_mul (n : ℕ) : n ≤ divCeil n blockLanes * blockLanes := by
  rw [divCeil, blockLanes]
  omega

/-- The programs and lanes of the grids, in any order. -/
structure Order.Valid (order : Order) (topkIds : List ℤ) (blockSize numExperts : ℕ) : Prop where
  programs : order.programs.Perm (List.range (gridCount topkIds blockSize numExperts))
  blocks : order.blocks.Perm (List.range (gridEids topkIds blockSize numExperts * blockLanes))
  lanes : order.lanes.Perm (List.range (gridScatter topkIds * blockLanes))

theorem exists_moeAlignLarge (hb : 0 < blockSize) {order : Order}
    (horder : order.Valid topkIds blockSize numExperts) :
    ∃ s, moeAlignLarge topkIds (numExperts + 1) blockSize order
      (allocate topkIds blockSize numExperts) = some s ∧
      Result topkIds blockSize numExperts (maxNumTokensPadded topkIds blockSize numExperts) s := by
  have hgrid := le_divCeil_mul
    (max (max (maxNumTokensPadded topkIds blockSize numExperts) topkIds.length) (numExperts + 1))
  have heids :=
    le_divCeil_mul (max (divCeil (maxNumTokensPadded topkIds blockSize numExperts) blockSize) 1)
  have hL : topkIds.length ≤ gridScatter topkIds * blockLanes :=
    (le_max_left _ _).trans (le_divCeil_mul (max topkIds.length 1))
  obtain ⟨c, hc, hcounted⟩ := exists_fillAndCount topkIds (numExperts + 1)
    (maxNumTokensPadded topkIds blockSize numExperts) order.programs
  obtain ⟨hsorted, hfill, hcounts⟩ := hcounted.all horder.programs (by rw [gridCount]; omega)
    (by rw [gridCount]; omega) (by rw [gridCount]; omega)
  have hids :=
    fillExpertIds_eq hb horder.blocks (offset_le hb topkIds numExperts) (by rw [gridEids]; omega)
  obtain ⟨s, hs, hscattered⟩ := exists_lanes hb horder.lanes hL (.zeros (numExperts + 1))
    (sentinels topkIds.length (maxNumTokensPadded topkIds blockSize numExperts)
    (maxNumTokensPadded topkIds blockSize numExperts)) (offset_mul_le hb topkIds numExperts)
    zeros_fill
  refine ⟨⟨s.2, expertIdsOf topkIds blockSize (numExperts + 1) _, totalOf topkIds blockSize
    (numExperts + 1), cumsumOf topkIds blockSize (numExperts + 1), s.1⟩, ?_, rfl, rfl, rfl, ?_⟩
  · simp only [moeAlignLarge, allocate, Buffer.size_empty, hc, hsorted, hfill, hcounts,
      cumsumExperts_eq, hids, scatter, hs, Option.bind_eq_bind, Option.bind_some]
    rfl
  · refine Aligned.of_scattered horder.lanes hL (fun p x hp => ?_) (fun p hp => if_pos hp)
      hscattered
    rw [sentinels] at hp
    dsimp only at hp
    split at hp
    · exact (Option.some.inj hp).symm
    · cases hp

/-- Both paths stay within the buffers, whatever the order of lanes; they agree on the offsets and
the experts of the blocks, and arrange the assignments by experts, each once below the padded total.
The large path leaves a sentinel in every other cell, and the small one in those before the padded
total: it does not write the cells behind. -/
theorem moeAlign_aligned (topkIds : List ℤ) (blockSize numExperts : ℕ) (hb : 0 < blockSize) :
    (∀ order : Order, order.Valid topkIds blockSize numExperts →
      ∃ s, moeAlignLarge topkIds (numExperts + 1) blockSize order
        (allocate topkIds blockSize numExperts) = some s ∧
        Aligned topkIds blockSize (numExperts + 1) (maxNumTokensPadded topkIds blockSize numExperts)
          s ∧
        ∀ lanes : List ℕ, lanes.Perm (List.range (nextPowerOf2 topkIds.length)) →
          ∃ s', moeAlignSmall topkIds (numExperts + 1) blockSize lanes
            (allocate topkIds blockSize numExperts) = some s' ∧
            Aligned topkIds blockSize (numExperts + 1)
              (offset topkIds blockSize (numExperts + 1) * blockSize) s' ∧
            s'.cumsum = s.cumsum ∧ s'.expertIds = s.expertIds ∧
              s'.numTokensPostPad = s.numTokensPostPad) ∧
    ∀ order : Order, (if 0 < topkIds.length ∧ topkIds.length ≤ 1024 then
        order.lanes.Perm (List.range (nextPowerOf2 topkIds.length))
          else order.Valid topkIds blockSize numExperts) →
      ∃ s, moeAlignBlockSize topkIds blockSize numExperts order = some s ∧
        Aligned topkIds blockSize (numExperts + 1)
          (offset topkIds blockSize (numExperts + 1) * blockSize) s := by
  refine ⟨fun order horder => ?_, fun order horder => ?_⟩
  · obtain ⟨s, hs, hresult⟩ := exists_moeAlignLarge hb horder
    refine ⟨s, hs, hresult.aligned, fun lanes hlanes => ?_⟩
    obtain ⟨s', hs', hresult'⟩ := exists_moeAlignSmall numExperts hb hlanes
    exact ⟨s', hs', hresult'.aligned, hresult'.cumsum.trans hresult.cumsum.symm,
      hresult'.expertIds.trans hresult.expertIds.symm, hresult'.numTokensPostPad.trans
      hresult.numTokensPostPad.symm⟩
  · rw [moeAlignBlockSize]
    split at horder
    · obtain ⟨s, hs, hresult⟩ := exists_moeAlignSmall numExperts hb horder
      exact ⟨s, by rw [if_pos ‹_›, hs], hresult.aligned⟩
    · obtain ⟨s, hs, hresult⟩ := exists_moeAlignLarge hb horder
      exact ⟨s, by rw [if_neg ‹_›, hs], hresult.aligned.mono (offset_mul_le hb topkIds numExperts)⟩

def inOrder (topkIds : List ℤ) (blockSize numExperts : ℕ) : Order :=
  ⟨List.range (gridCount topkIds blockSize numExperts),
    List.range (gridEids topkIds blockSize numExperts * blockLanes), List.range
    (gridScatter topkIds * blockLanes)⟩

theorem valid_inOrder (topkIds : List ℤ) (blockSize numExperts : ℕ) :
    (inOrder topkIds blockSize numExperts).Valid topkIds blockSize numExperts :=
  ⟨List.Perm.refl _, List.Perm.refl _, List.Perm.refl _⟩

theorem moeAlign_aligned_small :
    (∃ s, moeAlignLarge [0, 3, 0] 3 2 (inOrder [0, 3, 0] 2 2) (allocate [0, 3, 0] 2 2) = some s ∧
      Aligned [0, 3, 0] 2 3 (maxNumTokensPadded [0, 3, 0] 2 2) s ∧
      ∃ s', moeAlignSmall [0, 3, 0] 3 2 [2, 0, 1, 3] (allocate [0, 3, 0] 2 2) = some s' ∧
        s'.cumsum = s.cumsum) ∧
      ∃ s, moeAlignBlockSize [0, 3, 0] 2 2 ⟨[], [], [2, 0, 1, 3]⟩ = some s ∧
        Aligned [0, 3, 0] 2 3 (offset [0, 3, 0] 2 3 * 2) s := by
  obtain ⟨hpaths, hcall⟩ := moeAlign_aligned [0, 3, 0] 2 2 two_pos
  obtain ⟨s, hs, haligned, hsmall⟩ := hpaths (inOrder [0, 3, 0] 2 2) (valid_inOrder [0, 3, 0] 2 2)
  obtain ⟨s', hs', -, hcumsum, -⟩ := hsmall [2, 0, 1, 3] (by decide +kernel)
  refine ⟨⟨s, hs, haligned, s', hs', hcumsum⟩, hcall ⟨[], [], [2, 0, 1, 3]⟩ ?_⟩
  rw [if_pos (by decide)]
  decide

/-- The small path leaves the cells behind the padded total as they were allocated. -/
theorem small_path_leaves_cells :
    (moeAlignBlockSize [0, 0] 2 1 ⟨[], [], [1, 0]⟩).map
    (fun s => (s.sortedTokenIds.size, (List.range 4).map s.sortedTokenIds.cell)) =
      some (4, [some 1, some 0, none, none]) := by decide +kernel

end FreeToken.MoeAlign
