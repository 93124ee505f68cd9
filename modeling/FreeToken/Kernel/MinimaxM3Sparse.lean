import FreeToken.Lib.Lanes
import Mathlib.Data.Nat.Log
import Mathlib.Data.Nat.Size

/-!
# Block selection of the MiniMax-M3 sparse attention

One row of block scores goes in, the blocks that the attention reads come out, the best first.  A
tile is a pair of registers over `2 ^ nDims` lanes: scores, and block numbers counted from one,
where zero marks an empty lane.

* `topkIndexKernel`: the prefill path, tile after tile.
* `topkIndexPartialKernel`, `topkIndexMergeKernel`: the decode path, in chunks.
* `m3IndexDecode`: the decode path as it is launched.
-/

namespace FreeToken.MinimaxM3

def sparseBlockSize : ℕ := 128

/-! ### Single precision

The kernels add a number only to a zero, and multiply by zero or one only. -/

abbrev Fp32 := BitVec 32

def magnitude (x : Fp32) : ℕ := x.toNat % 2 ^ 31

def infinity : ℕ := 0x7F800000

def isFinite (x : Fp32) : Bool := magnitude x < infinity

def isNan (x : Fp32) : Bool := infinity < magnitude x

def isZero (x : Fp32) : Bool := magnitude x == 0

def negZero : Fp32 := 0x80000000#32

/-- The place of a number that is not a NaN in the order of the numbers. -/
def rank (x : Fp32) : ℤ := if x.msb then -magnitude x else magnitude x

def gt (x y : Fp32) : Bool := rank y < rank x

/-- `x * 1.0` or `x * 0.0`, for a finite number. -/
def times (x : Fp32) (mask : Bool) : Fp32 := if mask then x else x &&& negZero

/-- `x + y`, where one of them is a zero. -/
def plus (x y : Fp32) : Fp32 := if isZero x then (if isZero y then x &&& y else y) else x

/-- `-1e30`. -/
def emptyScore : Fp32 := 0xF149F2CA#32

/-- `1e30`. -/
def initScore : Fp32 := 0x7149F2CA#32

/-- `1e29`. -/
def localScore : Fp32 := 0x6FA18F08#32

/-! ### The sorting network -/

structure Tile where
  x : ℕ → Fp32
  ids : ℕ → ℕ

def compareAndSwap (t : Tile) (flip : ℕ → Bool) (i nDims : ℕ) : Tile :=
  let d := 2 ^ (nDims - i - 1)
  -- a lane as it is in the shape of `y`
  let lane (p half : ℕ) := p / (2 * d) * (2 * d) + half * d + p % d
  let left (p : ℕ) := plus (times (t.x (lane p 0)) true) (times (t.x (lane p 1)) false)
  let right (p : ℕ) := plus (times (t.x (lane p 0)) false) (times (t.x (lane p 1)) true)
  let leftIdx (p : ℕ) := t.ids (lane p 0) * 1 + t.ids (lane p 1) * 0
  let rightIdx (p : ℕ) := t.ids (lane p 0) * 0 + t.ids (lane p 1) * 1
  let cond (p : ℕ) := gt (left p) (right p) != flip p
  { x := fun p => t.x p ^^^ if cond p then left p ^^^ right p else 0
    ids := fun p => t.ids p ^^^ if cond p then leftIdx p ^^^ rightIdx p else 0 }

/-- `_bitonic_merge`; `False` and `True` are the orders 0 and 1. -/
def bitonicMerge (t : Tile) (stage order nDims : ℕ) : Tile :=
  let flip (p : ℕ) := if order == 2 then p / 2 ^ stage % 2 == 1 else order == 1
  (List.range stage).foldl (fun t i => compareAndSwap t flip (i + (nDims - stage)) nDims) t

def bitonicStages (t : Tile) (nDims : ℕ) : Tile :=
  (List.range' 1 (nDims - 1)).foldl (fun t j => bitonicMerge t j 2 nDims) t

/-! ### Tile after tile -/

def emptyTile : Tile where
  x := fun _ => emptyScore
  ids := fun _ => 0

/-- The body of the loop, after its loads. -/
def addTile (nDims : ℕ) (first : Bool) (last t : Tile) : Tile :=
  let t := bitonicStages t nDims
  if !first then
    let t := bitonicMerge t nDims 0 nDims
    let leftHalf (p : ℕ) : Bool := p < 2 ^ nDims / 2
    let new : Tile :=
      { x := fun p => plus (times (last.x p) (leftHalf p)) (times (t.x p) (!leftHalf p))
        ids := fun p => last.ids p * (leftHalf p).toNat + t.ids p * (1 - (leftHalf p).toNat) }
    bitonicMerge new nDims 1 nDims
  else
    bitonicMerge t nDims 1 nDims

/-- The loop over `count` blocks; `load i` are the lanes from block `i`. -/
def stream (nDims count : ℕ) (load : ℕ → Tile) : Tile :=
  (List.range (trips 0 count (2 ^ nDims))).foldl
    (fun last c => addTile nDims (c == 0) last (load (c * 2 ^ nDims))) emptyTile

def nextPowerOf2 (n : ℕ) : ℕ := 2 ^ Nat.clog 2 n

/-- The first `T` of `K` scores, as the masked sum over the rows of `T`. -/
def extractScore (K T : ℕ) (x : ℕ → Fp32) (t : ℕ) : Fp32 :=
  (List.range' 1 (K / T - 1)).foldl (fun acc r => plus acc (times (x (r * T + t)) false))
    (times (x t) true)

/-- The first `T` of `K` numbers. -/
def extractIdx (K T : ℕ) (ids : ℕ → ℤ) (t : ℕ) : ℤ :=
  (List.range (K / T)).foldl (fun acc r => acc + (if r == 0 then 1 else 0) * ids (r * T + t)) 0

/-! ### Prefill -/

def validBlocks (blockSize prefixLen pidQ : ℕ) : ℕ := (prefixLen + pidQ + blockSize) / blockSize

def clean (score : Fp32) : Fp32 := if isNan score then emptyScore else score

/-- The loads of `_topk_index_kernel`. -/
def prefillTile (s : ℕ → Fp32) (valid initBlocks localBlocks i : ℕ) : Tile :=
  let causal (p : ℕ) : Bool := i + p < valid
  let localMask (p : ℕ) : Bool := valid - localBlocks ≤ i + p
  let initMask (p : ℕ) : Bool := i + p < initBlocks
  { x := fun p =>
      let score := clean (if causal p then s (i + p) else emptyScore)
      let score := if causal p && initMask p then initScore else score
      if causal p && localMask p then localScore else score
    ids := fun p => if causal p then i + p + 1 else 0 }

/-- `_topk_index_kernel`, for one row. -/
def topkIndexKernel (nDims blockSize prefixLen pidQ topk initBlocks localBlocks : ℕ)
    (s : ℕ → Fp32) : List ℤ :=
  let T := nextPowerOf2 topk
  let valid := validBlocks blockSize prefixLen pidQ
  let t := stream nDims valid (prefillTile s valid initBlocks localBlocks)
  (List.range topk).map fun off =>
    if off < valid then extractIdx (2 ^ nDims) T (fun p => (t.ids p : ℤ) - 1) off else -1

/-! ### Decode -/

def numBlocks (blockSize : ℕ) (seqLen : ℤ) : ℕ := ((max seqLen 0).toNat + blockSize - 1) / blockSize

/-- The score that `_decode_index_score_kernel` stores for a block. -/
def decodeScore (numBlocks initBlocks localBlocks : ℕ) (s : ℕ → Fp32) (blk : ℕ) : Fp32 :=
  if numBlocks - localBlocks ≤ blk then localScore else if blk < initBlocks then initScore
    else s blk

def chunkBlocks (numBlocks numChunks : ℕ) : ℕ := (numBlocks + numChunks - 1) / numChunks

def chunkActual (numBlocks numChunks chunk : ℕ) : ℕ :=
  min (chunk * chunkBlocks numBlocks numChunks + chunkBlocks numBlocks numChunks) numBlocks -
    chunk * chunkBlocks numBlocks numChunks

/-- The loads of `_topk_index_partial_kernel`. -/
def chunkTile (s : ℕ → Fp32) (start actual i : ℕ) : Tile where
  x := fun p => clean (if p < actual - i then s (start + i + p) else emptyScore)
  ids := fun p => if p < actual - i then start + i + p + 1 else 0

/-- `_topk_index_partial_kernel`, for one chunk of one row. -/
def topkIndexPartialKernel (nDims topk numBlocks numChunks : ℕ) (s : ℕ → Fp32) (chunk : ℕ) : Tile :=
  let T := nextPowerOf2 topk
  let t := stream nDims (chunkActual numBlocks numChunks chunk)
    (chunkTile s (chunk * chunkBlocks numBlocks numChunks) (chunkActual numBlocks numChunks chunk))
  { x := extractScore (2 ^ nDims) T t.x
    ids := fun off => (extractIdx (2 ^ nDims) T (fun p => (t.ids p : ℤ)) off).toNat }

/-- `_topk_index_merge_kernel`, for one row. -/
def topkIndexMergeKernel (topk numBlocks numChunks : ℕ) (parts : ℕ → Tile) : List ℤ :=
  let T := nextPowerOf2 topk
  let nDims := Nat.clog 2 (numChunks * T)
  let t : Tile :=
    { x := fun off =>
      clean (if off / T < numChunks then (parts (off / T)).x (off % T) else emptyScore)
      ids := fun off => if off / T < numChunks then (parts (off / T)).ids (off % T) else 0 }
  let t := bitonicMerge (bitonicStages t nDims) nDims 1 nDims
  (List.range topk).map fun off =>
    if off < min topk numBlocks then extractIdx (2 ^ nDims) T (fun p => (t.ids p : ℤ) - 1) off
      else -1

/-- The two kernels of the decode path, one after the other. -/
def topkIndexDecode (nDims topk numBlocks numChunks : ℕ) (s : ℕ → Fp32) : List ℤ :=
  topkIndexMergeKernel topk numBlocks numChunks
    (topkIndexPartialKernel nDims topk numBlocks numChunks s)

def numTopkChunks (numReqs numIdxHeads : ℕ) : ℕ :=
  let topkTarget := max 1 (min 16 (64 / max 1 (numReqs * numIdxHeads)))
  1 <<< (Nat.size topkTarget - 1)

/-- `m3_index_decode`, for one index head of one request, from the scores before the forced blocks
get theirs. -/
def m3IndexDecode (numReqs numIdxHeads : ℕ) (seqLen : ℤ) (topk initBlocks localBlocks : ℕ)
    (s : ℕ → Fp32) : List ℤ :=
  let n := numBlocks sparseBlockSize seqLen
  topkIndexDecode 7 topk n (numTopkChunks numReqs numIdxHeads)
    (decodeScore n initBlocks localBlocks s)

end FreeToken.MinimaxM3
