import FreeToken.KvCache.DSV4PagedPool

/-!
# The candidates of DeepSeek-V4 attention

For each query, a list of slots of the window pool and then one of rows of the compressed pool; `-1`
is masked by the kernel.  A gather past the end of its buffer is `none`.
-/

namespace FreeToken

/-- `get_window_topk_idxs`, for one element of the batch. -/
def getWindowTopkIdxs (windowSize seqlen startPos : ℕ) : List (List ℤ) :=
  if windowSize ≤ startPos + 1 then
    let startPos := startPos % windowSize
    [(List.range' (startPos + 1) (windowSize - (startPos + 1)) ++ List.range (startPos + 1)).map
      Nat.cast]
  else if 0 < startPos then
    [(List.range (startPos + 1)).map Nat.cast ++ List.replicate (windowSize - startPos - 1) (-1)]
  else
    (List.range seqlen).map fun base : ℕ => (List.range (min seqlen windowSize)).map fun k : ℕ =>
      let entry : ℤ := max ((base : ℤ) - windowSize + 1) 0 + k
      if (base : ℤ) < entry then -1 else entry

/-- `get_compress_topk_idxs`, for one element of the batch. -/
def getCompressTopkIdxs (ratio seqlen startPos offset : ℕ) : List (List ℤ) :=
  if 0 < startPos then [(List.range ((startPos + 1) / ratio)).map fun b : ℕ =>
    ((b + offset : ℕ) : ℤ)]
  else
    (List.range seqlen).map fun i : ℕ => (List.range (seqlen / ratio)).map fun b : ℕ =>
      if (i + 1) / ratio ≤ b then -1 else ((b + offset : ℕ) : ℤ)

/-- Apply a gather to every entry of a matrix. -/
def gatherRows (f : ℤ → Option ℤ) (rows : List (List ℤ)) : Option (List (List ℤ)) :=
  rows.mapM fun row => row.mapM f

namespace DSV4PagedKVCache

/-- `translate_full_to_window`, of one location: the row past the end is a permanent `-1`, and a
negative index counts from there. -/
def translateFullToWindow (c : DSV4PagedKVCache) (loc : ℤ) : Option ℤ :=
  let i := if loc < 0 then loc + (c.sizes.fullToken + 1) else loc
  if 0 ≤ i ∧ i < c.sizes.fullToken then some (c.fullToWindow i.toNat)
  else if i = c.sizes.fullToken then some (-1)
  else none

/-- `cmp_rows`, of one location. -/
def cmpRow (loc : ℤ) (ratio : ℕ) : ℤ := loc / ratio

/-- `cmp_blocks` of a layer. -/
def cmpBlocks (c : DSV4PagedKVCache) (ratio : ℕ) : ℕ := c.sizes.fullToken / ratio

end DSV4PagedKVCache

/-- A request of a prefill batch: `(extend_len, table_idx, start_pos)` of `segments`; the offsets
tile the batch. -/
structure Dsv4Segment where
  n : ℕ
  tableIdx : ℕ
  startPos : ℕ
deriving DecidableEq, Repr

/-- The attention of a layer over the pool and its table: the window, the compression ratio (`0` for
none), and the blocks that the indexer of the layer picks, if it has one. -/
structure Dsv4Attention where
  pool : DSV4PagedKVCache
  fullLocMap : ℕ → List ℤ
  windowSize : ℕ
  compressRatio : ℕ
  indexer : Option (Dsv4Segment → List (List ℤ))

namespace Dsv4Attention

variable (a : Dsv4Attention)

def windowSlotsOf (ti lo hi : ℕ) : Option (List ℤ) :=
  (((a.fullLocMap ti).drop lo).take (hi - lo)).mapM a.pool.translateFullToWindow

def winColsToGlobal (winCols : List (List ℤ)) (slotLut : List ℤ) : Option (List (List ℤ)) :=
  gatherRows (fun col => (slotLut[(max col 0).toNat]?).map fun g => if col < 0 then -1 else g)
    winCols

/-- `blocks_to_global`, with a row of the table or of its snapshot. -/
def blocksToGlobal (blocks : List (List ℤ)) (fullAt : List ℤ) : Option (List (List ℤ)) :=
  gatherRows (fun block => (fullAt[(max block 0).toNat * a.compressRatio]?).map fun loc =>
    if block < 0 then -1 else DSV4PagedKVCache.cmpRow loc a.compressRatio) blocks

/-- `_compress_topk_extend`, for one element of the batch. -/
def compressTopkExtend (seqlen startPos ending offset : ℕ) : List (List ℤ) :=
  (List.range seqlen).map fun i : ℕ => (List.range (ending / a.compressRatio)).map fun b : ℕ =>
    if b < (startPos + i + 1) / a.compressRatio then ((b + offset : ℕ) : ℤ) else -1

/-- The window half of `_prefill_segment`. -/
def segmentWindow (s : Dsv4Segment) : Option (List (List ℤ)) := do
  let ending := s.startPos + s.n
  if s.startPos = 0 then
    let slots ← a.windowSlotsOf s.tableIdx s.startPos ending
    winColsToGlobal (getWindowTopkIdxs a.windowSize s.n 0) slots
  else
    let wLo := max 0 (s.startPos + 1 - a.windowSize)
    let wsPool ← a.windowSlotsOf s.tableIdx wLo ending
    let winCols := (List.range s.n).map fun i : ℕ => (List.range a.windowSize).map fun k : ℕ =>
      let absP := s.startPos + i
      let cand : ℤ := max ((absP : ℤ) - a.windowSize + 1) wLo + k
      if (absP : ℤ) < cand then -1 else cand - wLo
    winColsToGlobal winCols wsPool

def segmentBlocks (s : Dsv4Segment) : List (List ℤ) :=
  match a.indexer with
  | some pick => pick s
  | none =>
    if s.startPos = 0 then getCompressTopkIdxs a.compressRatio s.n 0 0
    else a.compressTopkExtend s.n s.startPos (s.startPos + s.n) 0

/-- The candidates of the new tokens of one request. -/
def prefillSegment (s : Dsv4Segment) : Option (List (List ℤ) × Option (List (List ℤ))) := do
  let winGlobal ← a.segmentWindow s
  if a.compressRatio = 0 then return (winGlobal, none)
  else
    let cmpGlobal ← a.blocksToGlobal (a.segmentBlocks s) (a.fullLocMap s.tableIdx)
    return (winGlobal, some cmpGlobal)

def width (rows : List (List ℤ)) : ℕ := (rows.head?.map List.length).getD 0

/-- `F.pad(.., value=-1)`. -/
def padRows (w : ℕ) (rows : List (List ℤ)) : List (List ℤ) :=
  rows.map fun row => row ++ List.replicate (w - row.length) (-1)

/-- `torch.cat(.., dim=-1)`, of matrices with as many rows. -/
def catRows (left right : List (List ℤ)) : Option (List (List ℤ)) :=
  if left.length = right.length then some (List.zipWith (· ++ ·) left right) else none

/-- The padded candidates of one request. -/
def flatPart (nWindow maxC : ℕ) (part : List (List ℤ) × Option (List (List ℤ))) :
    Option (List (List ℤ)) :=
  match part.2 with
  | none => some (padRows nWindow part.1)
  | some cg => catRows (padRows nWindow part.1) (padRows maxC cg)

/-- `torch.cat(.., dim=1)`, of matrices of one width. -/
def stackRows (flat : List (List (List ℤ))) : Option (List (List ℤ)) :=
  if flat.flatten.all fun row => row.length = width flat.flatten then some flat.flatten else none

/-- The candidates of `forward_ragged`: `n_window`, and `topk_idxs` with a row for each query. -/
def forwardRagged (segments : List Dsv4Segment) : Option (ℕ × List (List ℤ)) := do
  let parts ← segments.mapM a.prefillSegment
  let maxC := ((parts.filterMap Prod.snd).map width).foldl max 0
  let nWindow := if 1 < segments.length then a.windowSize
    else (parts.head?.map fun part => width part.1).getD 0
  let flat ← parts.mapM (flatPart nWindow maxC)
  let topkIdxs ← stackRows flat
  return (nWindow, topkIdxs)

/-- `full_snapshot` of a request: a copy of its row, or, with the width of a captured graph, what is
staged into the buffer of the graph, which is filled with `-1`. -/
def fullSnapshot (ti : ℕ) (captured : Option ℕ) : List ℤ :=
  match captured with
  | none => a.fullLocMap ti
  | some w => (a.fullLocMap ti).take w ++ List.replicate (w - (a.fullLocMap ti).length) (-1)

/-- `cmp_stage_cap` of a batch of `(table_idx, pos)`: the greatest position, or the last column of
the buffer. -/
def cmpStageCap (batch : List (ℕ × ℕ)) (captured : Option ℕ) : ℕ :=
  match captured with
  | none => (batch.map Prod.snd).foldl max 0
  | some w => w - 1

/-- Slot `j` of the window half of `window_ctx`, for a row of the snapshot. -/
def ringSlot (fullSnap : List ℤ) (pos j : ℕ) : Option ℤ := do
  let p : ℤ := pos - ((pos : ℤ) - j) % a.windowSize
  let loc ← fullSnap[(max p 0).toNat]?
  let ws ← a.pool.translateFullToWindow loc
  let ring := if 0 ≤ p then ws else -1
  return if j ≤ pos then ring else -1

/-- The blocks that a decode step looks at.  `picks` are those of the indexer. -/
def decodeBlocks (pos cmpStageCap : ℕ) (picks : List ℤ) : List ℤ :=
  match a.indexer with
  | some _ => picks
  | none =>
    (List.range ((cmpStageCap + 1) / a.compressRatio)).map fun b : ℕ =>
      if b < (pos + 1) / a.compressRatio then (b : ℤ) else -1

/-- The candidates of `decode_step` for one row of the batch, and the compressed columns that the
kernel visits. -/
def decodeStep (fullSnap : List ℤ) (pos cmpStageCap : ℕ) (picks : List ℤ) :
    Option (List ℤ × Option ℕ) := do
  let windowSlots ← (List.range a.windowSize).mapM (a.ringSlot fullSnap pos)
  if a.compressRatio = 0 then return (windowSlots, none)
  else
    let valid := (pos + 1) / a.compressRatio
    let compressIdxs ← a.blocksToGlobal [a.decodeBlocks pos cmpStageCap picks] fullSnap
    return (windowSlots ++ compressIdxs.flatten, some (min valid compressIdxs.flatten.length))

/-- `decode_step` for a batch of `(table_idx, pos)`. -/
def decode (batch : List (ℕ × ℕ)) (captured : Option ℕ) (picks : ℕ × ℕ → List ℤ) :
    Option (List (List ℤ × Option ℕ)) :=
  batch.mapM fun row => a.decodeStep (a.fullSnapshot row.1 captured) row.2
    (cmpStageCap batch captured) (picks row)

end Dsv4Attention

/-- The candidates that the kernel visits: of the window pool, and of the compressed pool. -/
def visited (nWindow : ℕ) (count : Option ℕ) (topkIdxs : List ℤ) : List ℤ × List ℤ :=
  (topkIdxs.take nWindow, count.elim (topkIdxs.drop nWindow) fun n =>
    (topkIdxs.drop nWindow).take n)

end FreeToken
