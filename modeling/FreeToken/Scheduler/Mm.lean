import FreeToken.Core
import FreeToken.Mm.EncoderCache

/-!
# Multimodal planning

The embedding rows that a chunk gathers and the items that it encodes.

* `mmRowsAfter`: the rows of an item behind a cached prefix.
* `planMMChunk`, `planMMBatch`: the encoder jobs and the gather plan of a chunk and of a batch.
* `runMMEncoder`: what the engine does with them.
-/

namespace FreeToken

def mmRowsAfter (item : MMItem) (cachedLen : ℕ) : ℕ :=
  item.offsets.foldr (fun (spanLo, spanHi) n => (spanHi - max spanLo cachedLen) + n) 0

/-- The loop of `mm_chunk_end` over the spans, the last one first. -/
def mmChunkEndLoop (chunkLo end_ align : ℕ) : List (ℕ × ℕ) → ℕ → ℕ
  | [], cut => cut
  | (spanLo, spanHi) :: spans, cut =>
    if spanLo < cut ∧ cut < spanHi then
      if spanLo ≤ chunkLo then end_
      else
        let cut := alignDown spanLo align
        if cut ≤ chunkLo then end_ else mmChunkEndLoop chunkLo end_ align spans cut
    else mmChunkEndLoop chunkLo end_ align spans cut

def spanLE (a b : ℕ × ℕ) : Bool := a.1 < b.1 || a.1 == b.1 && a.2 ≤ b.2

def mmChunkEnd (items : List MMItem) (chunkLo end_ align : ℕ) : ℕ :=
  mmChunkEndLoop chunkLo end_ align
    ((items.flatMap MMItem.offsets).mergeSort spanLE).reverse end_

/-- A row of a gather plan: the embedding rows `[rowLo, rowHi)` of an image land at the chunk
position `pos`. -/
structure PlanRow where
  uid : ℕ
  hash : ℕ
  rowLo : ℕ
  rowHi : ℕ
  numTokens : ℕ
  pos : ℕ
deriving DecidableEq, Repr

/-- The plan rows of one item: the parts of its spans in the window.  `rowBase` is the row of the
first token of the next span. -/
def planSpans (uid : ℕ) (item : MMItem) (windowLo windowHi : ℕ) : ℕ → List (ℕ × ℕ) → List PlanRow
  | _, [] => []
  | rowBase, (spanLo, spanHi) :: spans =>
    let lo := max spanLo windowLo
    let hi := min spanHi windowHi
    let rest := planSpans uid item windowLo windowHi (rowBase + (spanHi - spanLo)) spans
    if lo < hi then
      ⟨uid, item.hash, rowBase + lo - spanLo, rowBase + hi - spanLo, item.numTokens, lo -
        windowLo⟩ :: rest
    else rest

/-- One item of `plan_mm_chunk`, with the jobs and the plan so far. -/
def planMMItem (uid windowLo windowHi : ℕ) (cached : ℕ → Bool) (st : List MMItem × List PlanRow)
    (item : MMItem) : List MMItem × List PlanRow :=
  let needsEncode := !(st.1.any fun job => job.hash == item.hash) && !cached item.hash
  let rows := planSpans uid item windowLo windowHi 0 item.offsets
  (if needsEncode && !rows.isEmpty then st.1 ++ [item] else st.1, st.2 ++ rows)

/-- `plan_mm_chunk`; `cached` tells which images the encoder cache has. -/
def planMMChunk (uid : ℕ) (items : List MMItem) (windowLo windowHi : ℕ) (cached : ℕ → Bool) :
    List MMItem × List PlanRow :=
  items.foldl (planMMItem uid windowLo windowHi cached) ([], [])

/-- What the planning reads of a request. -/
structure MMReq where
  uid : ℕ
  mmItems : List MMItem
  cachedLen : ℕ
  deviceLen : ℕ
deriving DecidableEq, Repr

def MMReq.extendLen (r : MMReq) : ℕ := r.deviceLen - r.cachedLen

/-- The plan of a batch: the batch rows of the gathered embedding rows, and for each token of the
batch the end of the image span holding it (0 for text).  `offset` is the batch row of the next
request. -/
structure MMPlan where
  jobs : List MMItem := []
  plan : List PlanRow := []
  rows : List ℕ := []
  blockEnds : List ℕ := []
  offset : ℕ := 0
deriving DecidableEq, Repr

/-- The ends of the spans of a request at its tokens. -/
def setBlockEnds (req : MMReq) (offset : ℕ) (blockEnds : List ℕ) : List ℕ :=
  (req.mmItems.flatMap MMItem.offsets).foldl (fun blockEnds (spanLo, spanHi) =>
    let lo := max spanLo req.cachedLen
    (List.range' lo (min spanHi req.deviceLen - lo)).foldl
      (fun blockEnds i => blockEnds.set (offset + i - req.cachedLen) spanHi) blockEnds) blockEnds

/-- One request of `plan_mm_batch`, in a batch of `total` tokens. -/
def planMMReq (cached : ℕ → Bool) (total : ℕ) (p : MMPlan) (req : MMReq) : MMPlan :=
  let p :=
    if req.mmItems ≠ [] then
      let (jobs, plan) := planMMChunk req.uid req.mmItems req.cachedLen req.deviceLen cached
      { p with
        jobs := p.jobs ++ jobs
        plan := p.plan ++ plan
        rows := p.rows ++ plan.flatMap fun row => List.range' (p.offset + row.pos)
          (row.rowHi - row.rowLo)
        blockEnds := setBlockEnds req p.offset
          (if p.blockEnds = [] then List.replicate total 0 else p.blockEnds) }
    else p
  { p with offset := p.offset + req.extendLen }

def planMMBatch (reqs : List MMReq) (cached : ℕ → Bool) : MMPlan :=
  reqs.foldl (planMMReq cached (reqs.foldr (fun r n => r.extendLen + n) 0)) {}

/-! ### The encoder cache -/

/-- The claim of an admitted request: the rows that all its chunks will gather. -/
def claimRows {α : Type} (c : EncoderCache α) (uid : ℕ) (items : List MMItem) (cachedLen : ℕ) :
    EncoderCache α :=
  items.foldl (fun c item => c.register item.hash uid (mmRowsAfter item cachedLen)) c

/-- Dropping the claims of an aborted request. -/
def dropClaims {α : Type} (c : EncoderCache α) (uid : ℕ) (items : List MMItem) : EncoderCache α :=
  c.release uid (items.map MMItem.hash)

/-! ### The engine -/

variable {α : Type}

/-- One encoder job of `_run_mm_encoder`; `encode` is the encoder. -/
def runJob (encode : MMItem → List α) (c : EncoderCache α) (item : MMItem) :
    Option (EncoderCache α) :=
  if c.has item.hash then some c else c.put item.hash (encode item)

/-- One gathered slice of `_run_mm_encoder`, with the parts so far. -/
def gatherRow (st : EncoderCache α × List α) (row : PlanRow) : Option (EncoderCache α × List α) :=
  match st.1.getSlice row.hash row.rowLo row.rowHi with
  | none => none
  | some slice => (st.1.consume row.hash row.uid (row.rowHi - row.rowLo)).map fun c =>
    (c, st.2 ++ slice)

/-- Encode the jobs, then gather the embedding rows; `none` is a failed assertion. -/
def runMMEncoder (encode : MMItem → List α) (c : EncoderCache α) (jobs : List MMItem)
    (plan : List PlanRow) : Option (EncoderCache α × List α) :=
  -- a job whose rows are not gathered would be encoded and freed unread
  if jobs.all fun item => plan.any fun row => row.hash == item.hash then
    (jobs.foldlM (runJob encode) c).bind fun c => plan.foldlM gatherRow (c, [])
  else none

end FreeToken
