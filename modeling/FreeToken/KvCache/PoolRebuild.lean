import FreeToken.Lib.Faulting
import FreeToken.Lib.IndexPut
import Mathlib.Data.List.Range

/-!
# Resizing the cache pools in place

Each pool drops its tensors, and then allocates them anew.  A tensor is the size that it was
allocated for, or is dropped; an allocation is a point where the resize can fail.

* `HybridSWAKVCache`: the allocator state, a dense map from full slots to window slots and a free
  list of window slots.  Window slot 0 is the sentinel "no live window slot"; the entry past the
  end of the map is `-1`, so that a `-1` location reads `-1`.
* `LinearStatePool.rebuild`, `HybridPool.rebuild`: the new geometry is read off the old tensors.
* `SlabPool.rebuild`, `DSV4Pool.rebuild`: it is read off attributes.
* `MoeCache.rebuild`: the slot cache of the experts.
-/

namespace FreeToken

/-! ### The window slots -/

structure HybridSWAKVCache where
  fullNumTokens : ℕ
  swaNumTokens : ℕ
  pageSize : ℕ
  fullToSwaIndexMapping : ℕ → ℤ
  swaFree : List ℤ

namespace HybridSWAKVCache

/-- The indices of the map that name a full slot. -/
def fullSlots (c : HybridSWAKVCache) : List ℕ := List.range (c.fullNumTokens + c.pageSize)

/-- The window slots that can be handed out: all but the sentinel. -/
def windowSlots (c : HybridSWAKVCache) : List ℤ := (List.range' 1 (c.swaNumTokens - 1)).map Nat.cast

/-- Every full slot maps to the sentinel, every window slot is free. -/
def initSwaPagedState (fullNumTokens swaNumTokens pageSize : ℕ) : HybridSWAKVCache where
  fullNumTokens
  swaNumTokens
  pageSize
  fullToSwaIndexMapping := fun i => if i < fullNumTokens + pageSize then 0 else -1
  swaFree := (List.range' 1 (swaNumTokens - 1)).map Nat.cast

/-- The constructor: without a window size of its own, the window pool is as large as the full
one. -/
def create (numFullPages pageSize : ℕ) (numSwaTokens : Option ℕ) : HybridSWAKVCache :=
  initSwaPagedState (numFullPages * pageSize) (numSwaTokens.getD (numFullPages * pageSize)) pageSize

def rebuild (c : HybridSWAKVCache) (numFullPages : ℕ) (numSwaTokens : Option ℕ) :
    HybridSWAKVCache :=
  create numFullPages c.pageSize numSwaTokens

/-- The head of the free list backs the given full slots.  `none` is the
"SWA pool exhausted" error. -/
def allocSwa (c : HybridSWAKVCache) (fullIndices : List ℕ) : Option HybridSWAKVCache :=
  let n := fullIndices.length
  if n = 0 then some c
  else if c.swaFree.length < n then none
  else
    some { c with
      swaFree := c.swaFree.drop n
      fullToSwaIndexMapping := indexPut c.fullToSwaIndexMapping fullIndices (c.swaFree.take n) }

/-- The live window slots of the given full slots go back to the free list. -/
def freeSwa (c : HybridSWAKVCache) (fullIndices : List ℕ) : HybridSWAKVCache :=
  if fullIndices.length = 0 then c
  else
    let swa := (fullIndices.map c.fullToSwaIndexMapping).filter (0 < ·)
    { c with
      swaFree := c.swaFree ++ swa
      fullToSwaIndexMapping := indexFill c.fullToSwaIndexMapping fullIndices 0 }

def swaAvailableSize (c : HybridSWAKVCache) : ℕ := c.swaFree.length

end HybridSWAKVCache

end FreeToken

namespace FreeToken.CacheRebuild

/-- The tensors that a pool takes from its attributes. -/
inductive Slab
  | kv | codes | norms | scratch | indexK | cmpK | pendingRing | ropePositions | tailK | tailGate
  | windowPool | cmpPool | idxPool | stateRing | indexerStateRing | fullToWindow
  deriving DecidableEq

inductive Point
  | idleSync | validate | engineSync | resetCapture | destroyGraphs
  | moeSync | moeBank (i : ℕ) | moeCopyPlan | moeIdOfSlot | moeUsage | moeEvictSlots | moeSrcIndices
    | moePrefillBuffers
  | markForRebind | kvSync | kvSlab (slab : Slab) | hybridSync | hybridFull | hybridSwa |
    hybridMapping | windowAllocator
  | linearSync | linearConv | linearRecurrent | linearSlotState (i : ℕ)
  | pageTable | dummyRow | attachPageTable | memoryReadout | initCapture | graphCapture
  | freeSlots | prefixCache | tokenPool
  deriving DecidableEq

/-- An exception: `CacheRebuildRejected`, or any other. -/
inductive Err
  | rejected
  | other
  deriving DecidableEq

instance : FaultError Err := ⟨.other⟩

abbrev Prog (σ α : Type) := Faulting Point Err σ α

def step {σ : Type} (p : Point) : Prog σ Unit := Faulting.point p

/-! ### The recurrent state pool -/

structure ConvShape where
  nLayers : ℕ
  numSlots : ℕ
  convDim : ℕ
  km1 : ℕ
  deriving DecidableEq

structure RecurrentShape where
  nLayers : ℕ
  numSlots : ℕ
  vHeads : ℕ
  keyHeadDim : ℕ
  valueHeadDim : ℕ
  deriving DecidableEq

structure LinearStatePool where
  convStates : Option ConvShape
  recurrentStates : Option RecurrentShape
  numSpecs : ℕ
  slotStates : ℕ → Option ℕ
  numSlots : ℕ
  freeSlots : List ℕ

/-- The slots of an empty pool; slot 0 is the padding sink. -/
def poolSlots (numSlots : ℕ) : List ℕ := List.range' 1 (numSlots - 1)

def LinearStatePool.reclaimAllSlots (pool : LinearStatePool) : LinearStatePool :=
  { pool with freeSlots := poolSlots pool.numSlots }

/-- The shape of a tensor, if it is there. -/
def shapeOf {σ τ : Type} (t : Option τ) : Prog σ τ :=
  match t with
  | some shape => pure shape
  | none => Faulting.raise .other

def LinearStatePool.rebuild (numSlots : ℕ) : Prog LinearStatePool Unit := do
  let pool ← Faulting.read
  let conv ← shapeOf pool.convStates
  let recurrent ← shapeOf pool.recurrentStates
  Faulting.modify fun pool =>
    { pool with convStates := none, recurrentStates := none, slotStates := fun _ => none }
  step .linearSync
  step .linearConv
  Faulting.modify fun pool => { pool with convStates := some { conv with numSlots } }
  step .linearRecurrent
  Faulting.modify fun pool => { pool with recurrentStates := some { recurrent with numSlots } }
  (List.range pool.numSpecs).forM fun i => step (.linearSlotState i)
  Faulting.modify fun pool =>
    { pool with
      slotStates := fun i => if i < pool.numSpecs then some numSlots else none
      numSlots
      freeSlots := poolSlots numSlots }

/-! ### The hybrid full/sliding-window pool -/

structure Group where
  nLayers : ℕ
  outer : ℕ
  inner : ℕ
  kvHeads : ℕ
  headDim : ℕ
  deriving DecidableEq

structure HybridPool where
  full : Option Group
  swa : Option Group
  slots : HybridSWAKVCache

def HybridPool.rebuild (numFullPages numSwaTokens : ℕ) : Prog HybridPool Unit := do
  let pool ← Faulting.read
  let full ← shapeOf pool.full
  let pageSize := full.inner
  Faulting.modify fun pool =>
    { pool with slots := { pool.slots with fullNumTokens := numFullPages * pageSize, swaNumTokens :=
      numSwaTokens } }
  let swa ← shapeOf pool.swa
  Faulting.modify fun pool => { pool with full := none, swa := none }
  step .hybridSync
  step .hybridFull
  Faulting.modify fun pool => { pool with full := some { full with outer := numFullPages } }
  step .hybridSwa
  Faulting.modify fun pool =>
    { pool with swa := some { swa with outer := numSwaTokens, inner := 1 } }
  step .hybridMapping
  Faulting.modify fun pool =>
    { pool with
      slots := HybridSWAKVCache.initSwaPagedState pool.slots.fullNumTokens pool.slots.swaNumTokens
        pool.slots.pageSize }

/-! ### Pools of one geometry -/

/-- The pool families whose tensors all follow the page count. -/
inductive Family
  | mha | mhaCodec | bsa | qsa (mrope : Bool) | mla | dsa | kpool
  deriving DecidableEq

/-- What the K/V base of a family allocates, in its order. -/
def Family.base : Family → List Slab
  | .mhaCodec => [.codes, .norms, .scratch]
  | .dsa => [.kv, .indexK]
  | .kpool => [.kv, .indexK, .tailK, .tailGate]
  | _ => [.kv]

/-- What a family allocates after its base. -/
def Family.index : Family → List Slab
  | .bsa => [.indexK]
  | .qsa mrope => [.cmpK, .pendingRing] ++ if mrope then [.ropePositions] else []
  | _ => []

structure SlabPool where
  family : Family
  numPages : ℕ
  slab : Slab → Option ℕ

def SlabPool.alloc (numPages : ℕ) (slab : Slab) : Prog SlabPool Unit := do
  step (.kvSlab slab)
  Faulting.modify fun pool => { pool with slab := Function.update pool.slab slab (some numPages) }

/-- `rebuild` of `MHAKVCache`, `MLAKVCache` and their subclasses.  Where an index tensor fails, the
K/V slab is dropped too. -/
def SlabPool.rebuild (numPages : ℕ) : Prog SlabPool Unit := do
  let pool ← Faulting.read
  Faulting.modify fun pool => { pool with slab := fun _ => none }
  step .kvSync
  Faulting.modify fun pool => { pool with numPages }
  pool.family.base.forM (SlabPool.alloc numPages)
  Faulting.onRaise (pool.family.index.forM (SlabPool.alloc numPages)) fun pool =>
    { pool with slab := Function.update pool.slab .kv none }

/-! ### The paged pool of DeepSeek-V4 -/

/-- The sizes that everything else follows, in pages with the dummy page. -/
structure Sizes where
  numPages : ℕ
  nWinPages : ℕ
  deriving DecidableEq

structure DSV4Pool where
  sizes : Sizes
  slab : Slab → Option Sizes
  winFree : ℕ
  fullLocMap : ℕ

def DSV4Pool.slabs : List Slab :=
  [.windowPool, .cmpPool, .idxPool, .stateRing, .indexerStateRing, .fullToWindow]

def DSV4Pool.alloc (sizes : Sizes) (slab : Slab) : Prog DSV4Pool Unit := do
  step (.kvSlab slab)
  Faulting.modify fun pool => { pool with slab := Function.update pool.slab slab (some sizes) }

/-- `DSV4PagedPool.rebuild`; `winFree` counts the free window pages, all but the dummy. -/
def DSV4Pool.rebuild (sizes : Sizes) : Prog DSV4Pool Unit := do
  Faulting.modify fun pool => { pool with sizes, slab := fun _ => none }
  step .kvSync
  DSV4Pool.slabs.forM (DSV4Pool.alloc sizes)
  step .windowAllocator
  Faulting.modify fun pool => { pool with winFree := sizes.nWinPages - 1 }

/-! ### The expert cache -/

structure MoeCache where
  numExperts : ℕ
  numBanks : ℕ
  maxSlots : Option ℕ
  cacheSize : ℕ
  bankCaches : ℕ → Option ℕ
  idOfSlot : ℕ
  usage : ℕ
  evictSlots : ℕ
  srcIndices : ℕ
  prefillOverlap : Bool
  prefillBuffers : Option ℕ

/-- `validate_rebuild`; `maxSlots` is the lower of the two caps. -/
def MoeCache.validateRebuild (cache : MoeCache) (cacheSize : ℤ) : Bool :=
  (cache.numExperts : ℤ) ≤ cacheSize && (cache.maxSlots.all fun cap => cacheSize ≤ (cap : ℤ))

def MoeCache.allocBank (cacheSize i : ℕ) : Prog MoeCache Unit := do
  step (.moeBank i)
  Faulting.modify fun cache =>
    { cache with bankCaches := Function.update cache.bankCaches i (some cacheSize) }

def MoeCache.rebuild (cacheSize : ℕ) : Prog MoeCache Unit := do
  let cache ← Faulting.read
  Faulting.ensure .other (cache.validateRebuild cacheSize)
  Faulting.modify fun cache =>
    { cache with prefillBuffers := none, bankCaches := fun _ => none, cacheSize }
  step .moeSync
  (List.range cache.numBanks).forM (MoeCache.allocBank cacheSize)
  step .moeCopyPlan
  step .moeIdOfSlot
  Faulting.modify fun cache => { cache with idOfSlot := cacheSize }
  step .moeUsage
  Faulting.modify fun cache => { cache with usage := cacheSize }
  step .moeEvictSlots
  Faulting.modify fun cache => { cache with evictSlots := max cache.numExperts cacheSize }
  step .moeSrcIndices
  Faulting.modify fun cache => { cache with srcIndices := max cache.numExperts cacheSize }
  Faulting.modify fun cache =>
    { cache with prefillOverlap := cache.prefillOverlap && decide (2 * cache.numExperts ≤ cacheSize)
      }
  let cache ← Faulting.read
  Faulting.onlyIf cache.prefillOverlap do
    step .moePrefillBuffers
    Faulting.modify fun cache => { cache with prefillBuffers := some cacheSize }

end FreeToken.CacheRebuild
