import FreeToken.Lib.CellCopies
import FreeToken.Lib.Lanes
import FreeToken.Lib.SlotMap
import Mathlib.Data.Nat.Log
import Mathlib.Data.Prod.Lex

/-!
# The expert cache

The bookkeeping tensors of `OffloadMoeCache` and the kernels that write them.  An expert is named by
its flat identifier `layer * num_experts + expert`; `slot_for_id` gives its slot, `id_of_slot` the
identifier in a slot, `-1` stands for none.  While a prompt is prefilled, the layers' experts are
staged in two buffers that borrow the first `2 * num_experts` slots.  A byte of the banks is
addressed by its bank and its offset in there.

* `ensureExpertsHybridCpu`: the reference of the capped-fetch LRU step.
* `ensureExpertsHybridKernel`: the same step as the vector kernel computes it.
* `materializeLayerKernel`, `resetCacheKernel`, `prefillHitCompactKernel`: the other kernels.
* `invalidatePrefillBuffer`: the experts in the slots of a buffer lose them.
* `gatherEntries`: the copies of the experts that are in other slots, from there.
* `batchEntries`: the copies of the others, from the host, in runs of consecutive experts.
-/

namespace FreeToken

structure OffloadMoeCache where
  numLayers : ℕ
  numExperts : ℕ
  cacheSize : ℕ
  slotForId : ℕ → ℤ
  idOfSlot : ℕ → ℤ
  usage : ℕ → ℤ
  step : ℤ
  activeMask : ℕ → ℤ
  evictSlots : ℕ → ℕ
  srcIndices : ℕ → ℕ
  numIndices : ℤ
  numMissingFull : ℤ
  expertRecency : ℕ → ℤ

namespace OffloadMoeCache

/-- The cold cache: no expert is in a slot. -/
def create (numLayers numExperts cacheSize : ℕ) : OffloadMoeCache where
  numLayers
  numExperts
  cacheSize
  slotForId := fun _ => -1
  idOfSlot := fun _ => -1
  usage := fun _ => 0
  step := 0
  activeMask := fun _ => 0
  evictSlots := fun _ => 0
  srcIndices := fun _ => 0
  numIndices := 0
  numMissingFull := 0
  expertRecency := fun _ => -1

/-- The identifier of an expert in the flat space of all layers. -/
def flatId (c : OffloadMoeCache) (layerId expert : ℕ) : ℕ := layerId * c.numExperts + expert

def totalIds (c : OffloadMoeCache) : ℕ := c.numLayers * c.numExperts

/-- The writes of one fetch: `victim` loses the expert `oldId` it held and gets `expert`, which is
the `idx`-th entry of the copy list. -/
def assignSlot (c : OffloadMoeCache) (layerId idx victim expert : ℕ) (oldId : ℤ) :
    OffloadMoeCache :=
  { c with
    slotForId := Function.update (forget c.slotForId oldId) (c.flatId layerId expert) victim
    idOfSlot := Function.update c.idOfSlot victim (c.flatId layerId expert)
    usage := Function.update c.usage victim c.step
    evictSlots := Function.update c.evictSlots idx victim
    srcIndices := Function.update c.srcIndices idx expert }

/-! ### The reference -/

/-- The routed experts in the order of their first appearance. -/
def seen (expertIds : List ℕ) : List ℕ :=
  expertIds.foldl (fun seen expert => if expert ∈ seen then seen else seen ++ [expert]) []

/-- `usage` after the hits: their slots were used in the current step. -/
def touchHits (c : OffloadMoeCache) (layerId : ℕ) (seen : List ℕ) : ℕ → ℤ :=
  seen.foldl (fun usage expert =>
    let slot := c.slotForId (c.flatId layerId expert)
    if slot ≠ -1 then Function.update usage slot.toNat c.step else usage) c.usage

/-- The order of the fetches: the most recently active first, or by number. -/
def fetchKey (c : OffloadMoeCache) (byRecency : Bool) (layerId expert : ℕ) : ℤ ×ₗ ℕ :=
  if byRecency then toLex (-c.expertRecency (c.flatId layerId expert), expert)
  else toLex (0, expert)

/-- The experts of this step that have no slot, in the order of the fetches. -/
def missing (c : OffloadMoeCache) (byRecency : Bool) (layerId : ℕ) (seen : List ℕ) : List ℕ :=
  (seen.filter fun expert => c.slotForId (c.flatId layerId expert) = -1).insertionSort
    fun a b => c.fetchKey byRecency layerId a ≤ c.fetchKey byRecency layerId b

/-- How long fetching `f` of `m` misses takes, with the fraction as a 16-bit fixed point. -/
def fetchCost (fracQ16 m f : ℤ) : ℤ := max (f * (2 ^ 16 - fracQ16)) ((m - f) * fracQ16)

/-- The cap on the fetches: the given one, or the split that balances fetching and computing. -/
def fetchCap (maxFetch fracQ16 m : ℤ) : ℤ :=
  if 0 < fracQ16 then
    let lo := m * fracQ16 / 2 ^ 16
    if fetchCost fracQ16 m lo ≤ fetchCost fracQ16 m (lo + 1) then lo else lo + 1
  else maxFetch

/-- The slot that was used least recently, the lowest one of them: the least one by the key
`(usage[s], s)`. -/
def coldestSlot (c : OffloadMoeCache) : ℕ :=
  (List.range c.cacheSize).foldl (fun best s =>
    if c.usage s < c.usage best ∨ c.usage s = c.usage best ∧ s < best then s else best) 0

/-- The fetches of a step, one after the other.  The reference reads the victim from a copy of
`usage` that gets the same writes. -/
def fetchLoop (c : OffloadMoeCache) (layerId : ℕ) : ℕ → List ℕ → OffloadMoeCache
  | _, [] => c
  | idx, expert :: rest =>
    let victim := c.coldestSlot
    fetchLoop (c.assignSlot layerId idx victim expert (c.idOfSlot victim)) layerId (idx + 1) rest

/-- `_ensure_experts_hybrid_cpu`, with the rewritten identifiers. -/
def ensureExpertsHybridCpu (byRecency : Bool) (c : OffloadMoeCache) (layerId : ℕ)
    (expertIds : List ℕ) (maxFetch fracQ16 : ℤ) : OffloadMoeCache × List ℤ :=
  let seen := seen expertIds
  let flat := c.flatId layerId
  let zeroed : ℕ → ℤ := fun expert => if expert < c.numExperts then 0 else c.activeMask expert
  let c := { c with activeMask := indexFill zeroed seen 1, step := c.step + 1 }
  let c := { c with usage := c.touchHits layerId seen }
  let missing := c.missing byRecency layerId seen
  let numFetch := min (missing.length : ℤ) (fetchCap maxFetch fracQ16 missing.length)
  let c := { c with numMissingFull := missing.length, numIndices := numFetch }
  let c := c.fetchLoop layerId 0 (missing.take numFetch.toNat)
  let c :=
    if byRecency then
      { c with expertRecency := indexFill c.expertRecency (seen.map flat) c.step }
    else c
  (c, expertIds.map fun expert => c.slotForId (flat expert))

/-! ### The kernel -/

/-- The greatest 64-bit integer: a slot that may not be evicted. -/
def int64Max : ℤ := 9223372036854775807

/-- The score of an expert that is not to be fetched. -/
def noScore : ℤ := -1152921504606846976

def nextPowerOf2 (n : ℕ) : ℕ := 2 ^ Nat.clog 2 n

/-- What the fetch loop of the kernel carries from one fetch to the next. -/
structure FetchState where
  cache : OffloadMoeCache
  u : ℕ → ℤ
  score : ℕ → ℤ

/-- One fetch of the kernel: the victim is the least lane of `u`, the expert the greatest lane of
`score`, or the missing expert whose rank is the number of the fetch. -/
def kernelFetch (byRecency : Bool) (blockE blockC layerId : ℕ) (oid : ℕ → ℤ) (isMissing : ℕ → Bool)
    (st : FetchState) (i : ℕ) : FetchState :=
  let victim := laneArgmin st.u blockC
  let oldId := laneSum blockC fun s => if s = victim then oid s else 0
  let expert :=
    if byRecency then laneArgmax st.score blockE
    else (laneSum blockE fun e =>
      if laneCumsum (maskInt isMissing) e - 1 = i ∧ isMissing e then (e : ℤ) else 0).toNat
  { cache := st.cache.assignSlot layerId i victim expert oldId
    u := fun s => if s = victim then int64Max else st.u s
    score := fun e => if e = expert then noScore else st.score e }

def isActive (expertIds : List ℕ) (e : ℕ) : Bool := expertIds.any fun expert => e == expert

/-- The slots of the layer's experts, lane by lane. -/
def laneSlot (c : OffloadMoeCache) (layerId e : ℕ) : ℤ :=
  if e < c.numExperts then c.slotForId (c.flatId layerId e) else -1

/-- The lanes of the routed experts without a slot. -/
def isMissing (c : OffloadMoeCache) (layerId : ℕ) (expertIds : List ℕ) (e : ℕ) : Bool :=
  isActive expertIds e && c.laneSlot layerId e == -1 && decide (e < c.numExperts)

/-- The lanes of the routed experts with a slot. -/
def isHit (c : OffloadMoeCache) (layerId : ℕ) (expertIds : List ℕ) (e : ℕ) : Bool :=
  isActive expertIds e && decide (0 ≤ c.laneSlot layerId e)

/-- Phase 1: the clock, the active mask, the counts of the misses and the fetches, and the last uses
of the hits. -/
def kernelBegin (blockE : ℕ) (c : OffloadMoeCache) (layerId : ℕ) (expertIds : List ℕ)
    (maxFetch fracQ16 : ℤ) : OffloadMoeCache :=
  let step := c.step + 1
  let numMissing := laneSum blockE (maskInt (c.isMissing layerId expertIds))
  { c with
    step
    activeMask := laneStore blockE (fun e => decide (e < c.numExperts)) id
      (maskInt (isActive expertIds)) c.activeMask
    numMissingFull := numMissing
    numIndices := min numMissing (fetchCap maxFetch fracQ16 numMissing)
    usage := laneStore blockE (c.isHit layerId expertIds) (fun e => (c.laneSlot layerId e).toNat)
      (fun _ => step) c.usage }

/-- The fetch priorities: the recency in the high digits, the number in the low ones. -/
def kernelScore (c : OffloadMoeCache) (layerId : ℕ) (expertIds : List ℕ) (e : ℕ) : ℤ :=
  let recency := if e < c.numExperts then c.expertRecency (c.flatId layerId e) else -1
  if c.isMissing layerId expertIds e then recency * c.numExperts + (c.numExperts - 1 - e)
    else noScore

/-- The identifiers in the slots, lane by lane. -/
def laneOid (c : OffloadMoeCache) (s : ℕ) : ℤ := if s < c.cacheSize then c.idOfSlot s else -1

/-- The last uses of the slots that may be evicted: those that hold no routed expert. -/
def kernelUsage (c : OffloadMoeCache) (layerId : ℕ) (expertIds : List ℕ) (s : ℕ) : ℤ :=
  let ownerActive := expertIds.any fun expert => c.laneOid s == c.flatId layerId expert
  if ownerActive || !decide (s < c.cacheSize) then int64Max
  else if s < c.cacheSize then c.usage s else int64Max

/-- `_ensure_experts_hybrid_kernel`, with the rewritten identifiers. -/
def ensureExpertsHybridKernel (byRecency : Bool) (blockE blockC : ℕ) (c : OffloadMoeCache)
    (layerId : ℕ) (expertIds : List ℕ) (maxFetch fracQ16 : ℤ) : OffloadMoeCache × List ℤ :=
  let flat := c.flatId layerId
  let c₁ := c.kernelBegin blockE layerId expertIds maxFetch fracQ16
  -- phase 2: evict the least recently used slots that hold no routed expert
  let c₂ := ((List.range c₁.numIndices.toNat).foldl
    (kernelFetch byRecency blockE blockC layerId c₁.laneOid (c.isMissing layerId expertIds))
    ⟨c₁, c₁.kernelUsage layerId expertIds, c.kernelScore layerId expertIds⟩).cache
  -- phase 3: rewrite the identifiers
  let out := expertIds.map fun expert => c₂.slotForId (flat expert)
  let active : ℕ → Bool := fun e => isActive expertIds e && decide (e < c.numExperts)
  (if byRecency then
    { c₂ with expertRecency := laneStore blockE active flat (fun _ => c₁.step) c₂.expertRecency }
  else c₂, out)

def ensureExpertsHybridGpu (byRecency : Bool) (c : OffloadMoeCache) (layerId : ℕ)
    (expertIds : List ℕ) (maxFetch fracQ16 : ℤ) : OffloadMoeCache × List ℤ :=
  ensureExpertsHybridKernel byRecency (nextPowerOf2 c.numExperts) (nextPowerOf2 c.cacheSize) c
    layerId expertIds maxFetch fracQ16

/-! ### The other kernels -/

/-- The layer's experts go to the first slots, in order. -/
def materializeLayerKernel (block : ℕ) (c : OffloadMoeCache) (layerId : ℕ) : OffloadMoeCache :=
  let base := layerId * c.numExperts
  let expertMask : ℕ → Bool := fun off => decide (off < c.numExperts)
  let slotMask : ℕ → Bool := fun off => decide (off < c.cacheSize)
  let oldId : ℕ → ℤ := fun off => if slotMask off then c.idOfSlot off else -1
  -- flat identifiers make "belongs to this layer" a range check
  let sameLayer : ℕ → Bool := fun off =>
    slotMask off && decide ((base : ℤ) ≤ oldId off) && decide (oldId off < base + c.numExperts)
  let idOfSlot := laneStore block sameLayer id (fun _ => -1) c.idOfSlot
  let usage := laneStore block sameLayer id (fun _ => 0) c.usage
  let oldValid : ℕ → Bool := fun off => expertMask off && decide (0 ≤ oldId off) && !sameLayer off
  let slotForId := laneStore block oldValid (fun off => (oldId off).toNat) (fun _ => -1) c.slotForId
  let step := c.step + 1
  { c with
    step
    idOfSlot := laneStore block expertMask id (fun off => ((base + off : ℕ) : ℤ)) idOfSlot
    slotForId := laneStore block expertMask (base + ·) (fun off => (off : ℤ)) slotForId
    usage := laneStore block expertMask id (fun _ => step) usage
    evictSlots := laneStore block expertMask id id c.evictSlots
    srcIndices := laneStore block expertMask id id c.srcIndices
    numIndices := c.numExperts }

/-- `_materialize_layer_gpu`: the launch. -/
def materializeLayer (c : OffloadMoeCache) (layerId : ℕ) : OffloadMoeCache :=
  materializeLayerKernel (nextPowerOf2 (max c.numExperts c.cacheSize)) c layerId

/-- `_reset_cache_kernel` over `lanes` lanes of all its blocks. -/
def resetCacheKernel (lanes : ℕ) (c : OffloadMoeCache) : OffloadMoeCache :=
  { c with
    slotForId := laneStore lanes (fun off => decide (off < c.totalIds)) id (fun _ => -1) c.slotForId
    idOfSlot := laneStore lanes (fun off => decide (off < c.cacheSize)) id (fun _ => -1) c.idOfSlot
    usage := laneStore lanes (fun off => decide (off < c.cacheSize)) id (fun _ => 0) c.usage
    activeMask :=
      laneStore lanes (fun off => decide (off < c.numExperts)) id (fun _ => 0) c.activeMask
    step := 0
    numIndices := 0 }

/-- The kernel in blocks of 256 lanes, then the recencies. -/
def reset (c : OffloadMoeCache) : OffloadMoeCache :=
  let grid := (max c.totalIds c.cacheSize + 255) / 256
  { resetCacheKernel (grid * 256) c with expertRecency := fun _ => -1 }

end OffloadMoeCache

/-- The rows whose slot is at least `threshold`, compacted into buffer
rows, cache slots and their number. -/
def prefillHitCompactKernel (block numExperts bufferBase threshold : ℕ) (slots : ℕ → ℤ)
    (dst src : ℕ → ℕ) : (ℕ → ℕ) × (ℕ → ℕ) × ℤ :=
  let slots : ℕ → ℤ := fun off => if off < numExperts then slots off else -1
  let isHit :
    ℕ → Bool := fun off => decide (off < numExperts) && decide ((threshold : ℤ) ≤ slots off)
  let pos : ℕ → ℕ := fun off => (laneCumsum (maskInt isHit) off - 1).toNat
  (laneStore block isHit pos (bufferBase + ·) dst,
    laneStore block isHit pos (fun off => (slots off).toNat) src,
    laneSum block (maskInt isHit))

namespace OffloadMoeCache

def invalidatePrefillBuffer (c : OffloadMoeCache) (bufferId : ℕ) : OffloadMoeCache :=
  let slotStart := bufferId * c.numExperts
  let slotEnd := slotStart + c.numExperts
  let slots := List.range' slotStart (min slotEnd c.cacheSize - slotStart)
  let oldIds := slots.map c.idOfSlot
  { c with
    slotForId := indexFill c.slotForId ((oldIds.filter fun old => 0 ≤ old).map Int.toNat) (-1)
    idOfSlot := indexFill c.idOfSlot slots (-1)
    -- no use: the slots are evicted first
    usage := indexFill c.usage slots 0 }

end OffloadMoeCache

/-! ### Runs of misses -/

def npNonzero : List Bool → List ℕ
  | [] => []
  | b :: l => if b then 0 :: (npNonzero l).map (· + 1) else (npNonzero l).map (· + 1)

def npDiff : List ℕ → List ℤ
  | a :: b :: l => ((b : ℤ) - a) :: npDiff (b :: l)
  | _ => []

/-- The starts and the lengths of the runs of consecutive misses. -/
def missRuns (miss : List ℕ) : List (ℕ × ℕ) :=
  let runStarts := 0 :: (npNonzero ((npDiff miss).map fun d => d != 1)).map (· + 1)
  let starts := runStarts.map fun i => miss.getD i 0
  let lengths := npDiff (runStarts ++ [miss.length])
  starts.zip (lengths.map Int.toNat)

/-! ### The copies -/

/-- Banks with shorter rows are copied whole. -/
def smallBankFeatBytes : ℕ := 256 * 1024

/-- One entry of a batch: `nbytes` bytes of a bank. -/
structure CopyEntry where
  bank : ℕ
  dst : ℕ
  src : ℕ
  nbytes : ℕ

namespace CopyEntry

variable {β : Type*}

/-- The copy inside the bank, byte by byte. -/
def d2d (e : CopyEntry) : List ((ℕ × ℕ) × (ℕ × ℕ ⊕ β)) :=
  (List.range e.nbytes).map fun k => ((e.bank, e.dst + k), .inl (e.bank, e.src + k))

/-- The copy from the layer's rows on the host, byte by byte. -/
def h2d (host : ℕ → ℕ → β) (e : CopyEntry) : List ((ℕ × ℕ) × (ℕ × ℕ ⊕ β)) :=
  (List.range e.nbytes).map fun k => ((e.bank, e.dst + k), .inr (host e.bank (e.src + k)))

end CopyEntry

/-- The hits of a layer: its experts in slots that no buffer borrows. -/
def hitMask (numExperts : ℕ) (slots : ℕ → ℤ) (expert : ℕ) : Bool :=
  decide (((2 * numExperts : ℕ) : ℤ) ≤ slots expert)

/-- The gather of the hits into the buffer, for the banks with long rows (`feats` holds the bytes of
a row, bank by bank).  `slots` is the layer's row of the slot map when the kernel reads it, `dst`
and `src` what its result buffers hold before. -/
def gatherEntries (numExperts bufferId : ℕ) (feats : List ℕ) (slots : ℕ → ℤ) (dst src : ℕ → ℕ) :
    List CopyEntry :=
  let (dst, src, num) :=
    prefillHitCompactKernel (OffloadMoeCache.nextPowerOf2 numExperts) numExperts
    (bufferId * numExperts) (2 * numExperts) slots dst src
  feats.zipIdx.flatMap fun (feat, bank) =>
    if feat < smallBankFeatBytes then []
    else (List.range num.toNat).map fun i => ⟨bank, dst i * feat, src i * feat, feat⟩

/-- The batch of the copies from the host: a bank with short rows whole, and the misses of the
others run by run.  `snap` is the layer's row of the snapshot of the slot map. -/
def batchEntries (numExperts bufferId : ℕ) (feats : List ℕ) (snap : ℕ → ℤ) : List CopyEntry :=
  let miss := npNonzero ((List.range numExperts).map fun e => !hitMask numExperts snap e)
  feats.zipIdx.flatMap fun (feat, bank) =>
    if feat < smallBankFeatBytes then
      -- whole layer as one entry, even with no miss: the gather skips these banks
      [⟨bank, bufferId * numExperts * feat, 0, numExperts * feat⟩]
    else if miss ≠ [] then
      (missRuns miss).map fun (start, length) =>
        ⟨bank, (bufferId * numExperts + start) * feat, start * feat, length * feat⟩
    else []

def prefetchSplit {β : Type*} (numExperts bufferId : ℕ) (feats : List ℕ) (slots snap : ℕ → ℤ)
    (dst src : ℕ → ℕ) (host : ℕ → ℕ → β) : List ((ℕ × ℕ) × (ℕ × ℕ ⊕ β)) :=
  (gatherEntries numExperts bufferId feats slots dst src).flatMap CopyEntry.d2d ++
    (batchEntries numExperts bufferId feats snap).flatMap (CopyEntry.h2d host)

end FreeToken
