import FreeToken.Lib.BucketScatter
import Mathlib.Order.Lattice.Nat
import Mathlib.Data.Nat.Log
import Mathlib.Data.Nat.Size

/-!
# The block alignment of experts

The assignments of tokens to experts are sorted by their expert, and the region of an expert is
padded to whole blocks.

* `moeAlignSmall`: one program, for few assignments.
* `fillAndCount`, `cumsumExperts`, `fillExpertIds`, `scatter`: the four kernels of the other path.
* `moeAlignBlockSize`: the buffers and the choice between the two.

Lanes and programs come in any order: that of the atomic additions is an argument.
-/

namespace FreeToken.MoeAlign

open BucketScatter

def nextPowerOf2 (n : ℕ) : ℕ := 2 ^ Nat.clog 2 n

def divCeil (a b : ℕ) : ℕ := (a + b - 1) / b

/-- The number of lanes of a program, on the large path. -/
def blockLanes : ℕ := 256

variable (topkIds : List ℤ) (effectiveE blockSize : ℕ)

/-! ### Lanes -/

/-- The expert of a lane, where its id is valid; behind the last id a lane has `-1`. -/
def laneExpert (n : ℕ) : Option ℕ :=
  let e := topkIds.getD n (-1)
  if n < topkIds.length ∧ 0 ≤ e ∧ e < effectiveE then some e.toNat else none

/-- The bin of a lane: the last one is spare, for invalid ids. -/
def laneBin (hist n : ℕ) : ℕ := (laneExpert topkIds effectiveE n).getD (hist - 1)

def histogram (lanes : List ℕ) (bin : ℕ → ℕ) (le : ℕ) : ℕ := lanes.countP fun l => bin l = le

/-- `tl.cumsum` less the lane itself: the blocks of the experts before `le`. -/
def exclusive (nblk : ℕ → ℕ) (le : ℕ) : ℕ := ∑ i ∈ Finset.range (le + 1), nblk i - nblk le

/-! ### The small path -/

structure Buffers where
  sortedTokenIds : Buffer ℕ
  expertIds : Buffer ℕ
  numTokensPostPad : Buffer ℕ
  cumsum : Buffer ℕ
  fillCounter : Buffer ℕ

def smallBlocks (le : ℕ) : ℕ :=
  let counts := histogram (List.range (nextPowerOf2 topkIds.length))
    (laneBin topkIds effectiveE (nextPowerOf2 (effectiveE + 1)))
  ((if le < effectiveE then counts le else 0) + blockSize - 1) / blockSize

def moeAlignSmall (lanes : List ℕ) (m : Buffers) : Option Buffers := do
  let numel := topkIds.length
  let hist := nextPowerOf2 (effectiveE + 1)
  let nblk := smallBlocks topkIds effectiveE blockSize
  let exclBlk := exclusive nblk
  let npp := (∑ le ∈ Finset.range hist, nblk le) * blockSize
  let cumsum ← m.cumsum.storeLanes (List.range hist) (fun le => le < effectiveE) id fun le =>
    exclBlk le * blockSize
  let cumsum ← cumsum.store effectiveE npp
  let numTokensPostPad ← m.numTokensPostPad.store 0 npp
  let fillCounter ← m.fillCounter.storeLanes (List.range hist) (fun le => le < effectiveE)
    id fun _ => 0
  let expertIds ← (List.range ((Finset.range hist).sup nblk)).foldlM (fun ids j =>
    ids.storeLanes (List.range hist) (fun le => le < effectiveE && j < nblk le)
      (fun le => exclBlk le + j) id) m.expertIds
  -- the sentinel in front of `npp` only
  let sorted ← (List.range' 0 ((npp + 1023) / 1024) 1024).foldlM (fun sorted s =>
    sorted.storeLanes (List.range 1024) (fun fo => s + fo < npp) (fun fo => s + fo) fun _ => numel)
      m.sortedTokenIds
  let (fillCounter, sorted) ← lanes.foldlM (scatterStep (laneExpert topkIds effectiveE) cumsum)
    (fillCounter, sorted)
  pure ⟨sorted, expertIds, numTokensPostPad, cumsum, fillCounter⟩

/-! ### The large path -/

/-- What `_fill_and_count` writes. -/
structure CountState where
  sorted : Buffer ℕ
  fillCounter : Buffer ℕ
  counts : Buffer ℕ

/-- `_fill_and_count`, for one program. -/
def fillAndCount (sortedNumel hist : ℕ) (s : CountState) (pid : ℕ) : Option CountState := do
  let lanes := List.range blockLanes
  let offs := fun l => pid * blockLanes + l
  let sorted ← s.sorted.storeLanes lanes (fun l => offs l < sortedNumel) offs fun _ =>
    topkIds.length
  let fillCounter ← s.fillCounter.storeLanes lanes (fun l => offs l < effectiveE) offs fun _ => 0
  let h := histogram lanes fun l => laneBin topkIds effectiveE hist (offs l)
  let counts ← s.counts.addLanes (List.range hist) (fun le => le < effectiveE && 0 < h le) h
  pure ⟨sorted, fillCounter, counts⟩

def cumsumExperts (counts cumsum numTokensPostPad : Buffer ℕ) : Option (Buffer ℕ × Buffer ℕ) := do
  let lanes := List.range (nextPowerOf2 effectiveE)
  let c ← counts.loadLanes lanes (fun lane => lane < effectiveE) 0
  let nblk := fun lane => if lane < effectiveE then (c lane + blockSize - 1) / blockSize else 0
  let totalTok := (∑ lane ∈ Finset.range (nextPowerOf2 effectiveE), nblk lane) * blockSize
  let cumsum ← cumsum.storeLanes lanes (fun lane => lane < effectiveE) id fun lane =>
    exclusive nblk lane * blockSize
  let cumsum ← cumsum.store effectiveE totalTok
  let numTokensPostPad ← numTokensPostPad.store 0 totalTok
  pure (cumsum, numTokensPostPad)

/-- One step of the binary search for block `b`. -/
def searchStep (cumsum : Buffer ℕ) (b : ℕ) (s : ℕ × ℕ) : Option (ℕ × ℕ) := do
  let mid := (s.1 + s.2) / 2
  let off ← cumsum.load mid
  if off / blockSize ≤ b then pure (mid + 1, s.2) else pure (s.1, mid)

/-- `_fill_expert_ids`, for one lane.  The search ends at a positive `lo`. -/
def fillExpertId (cumsum : Buffer ℕ) (totalBlk : ℕ) (ids : Buffer ℕ) (b : ℕ) : Option (Buffer ℕ) :=
  if b < totalBlk then do
    let s ← (List.range effectiveE.size).foldlM (fun s _ => searchStep blockSize cumsum b s)
      (0, effectiveE)
    ids.store b (s.1 - 1)
  else some ids

def fillExpertIds (lanes : List ℕ) (cumsum numTokensPostPad expertIds : Buffer ℕ) :
    Option (Buffer ℕ) := do
  let npp ← numTokensPostPad.load 0
  lanes.foldlM (fillExpertId effectiveE blockSize cumsum (npp / blockSize)) expertIds

def scatter (lanes : List ℕ) (cumsum fillCounter sorted : Buffer ℕ) :
    Option (Buffer ℕ × Buffer ℕ) :=
  lanes.foldlM (scatterStep (laneExpert topkIds effectiveE) cumsum) (fillCounter, sorted)

/-- In what order the programs and lanes of the kernels come. -/
structure Order where
  programs : List ℕ
  blocks : List ℕ
  lanes : List ℕ

/-- The four kernels, one after the other. -/
def moeAlignLarge (order : Order) (m : Buffers) : Option Buffers := do
  let hist := nextPowerOf2 (effectiveE + 1)
  let s ← order.programs.foldlM (fillAndCount topkIds effectiveE m.sortedTokenIds.size hist)
    ⟨m.sortedTokenIds, m.fillCounter, Buffer.zeros effectiveE⟩
  let (cumsum, numTokensPostPad) ← cumsumExperts effectiveE blockSize s.counts m.cumsum
    m.numTokensPostPad
  let expertIds ← fillExpertIds effectiveE blockSize order.blocks cumsum numTokensPostPad
    m.expertIds
  let (fillCounter, sorted) ← scatter topkIds effectiveE order.lanes cumsum s.fillCounter s.sorted
  pure ⟨sorted, expertIds, numTokensPostPad, cumsum, fillCounter⟩

/-! ### The call -/

variable (numExperts : ℕ)

def maxNumTokensPadded : ℕ :=
  if topkIds.length < numExperts + 1 then topkIds.length * blockSize
  else topkIds.length + (numExperts + 1) * (blockSize - 1)

def allocate : Buffers :=
  { sortedTokenIds := .empty (maxNumTokensPadded topkIds blockSize numExperts)
    expertIds := .empty (divCeil (maxNumTokensPadded topkIds blockSize numExperts) blockSize)
    numTokensPostPad := .empty 1
    cumsum := .empty (numExperts + 1 + 1)
    fillCounter := .empty (numExperts + 1) }

/-- How many programs the three grids have. -/
def gridCount :
    ℕ := divCeil
    (max (max (maxNumTokensPadded topkIds blockSize numExperts) topkIds.length) (numExperts + 1))
    blockLanes

def gridEids : ℕ :=
  divCeil (max (divCeil (maxNumTokensPadded topkIds blockSize numExperts) blockSize) 1) blockLanes

def gridScatter : ℕ := divCeil (max topkIds.length 1) blockLanes

def moeAlignBlockSize (order : Order) : Option Buffers :=
  let m := allocate topkIds blockSize numExperts
  if 0 < topkIds.length ∧ topkIds.length ≤ 1024 then moeAlignSmall topkIds (numExperts + 1)
    blockSize order.lanes m
  else moeAlignLarge topkIds (numExperts + 1) blockSize order m

end FreeToken.MoeAlign
