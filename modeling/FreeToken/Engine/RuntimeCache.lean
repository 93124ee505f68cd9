import FreeToken.KvCache.PoolRebuild

/-!
# Resizing the caches of a running engine

`rebuildRuntimeCache` checks the request, tears the graphs down, resizes the pools that the request
names, refreshes the page table and captures the graphs again.

A tensor that is replaced as a whole is told apart by its number.
-/

namespace FreeToken.CacheRebuild

/-! ### The configuration -/

/-- What a target is priced at: `current` are the sizes of a pool that stays as it is. -/
@[ext] structure Account where
  targetMoe : ℕ
  targetPages : ℕ
  targetMamba : Option ℕ
  window : Option ℕ
  current : Option Sizes

/-- `cache_type`, once it is resolved. -/
inductive CacheType
  | naive
  | radix
  | hybridRadix
  | swaRadix
  deriving DecidableEq

/-- `fits` is the budget check of the pool families, `byRatio` the window that the ratio gives for a
page count; the shapes are those of the model's tensors, whatever their size. -/
structure Config where
  pageSize : ℕ
  convShape : ConvShape
  recurrentShape : RecurrentShape
  fullShape : Group
  swaShape : Group
  maxSeqLen : ℕ
  maxExtendTokens : ℕ
  maxRunningReq : ℕ
  linearPoolMinSlots : ℕ
  windowFloor : ℕ
  naiveSwaNumTokens : ℕ
  byRatio : ℕ → ℕ
  cacheType : CacheType
  tpSize : ℕ
  fits : Account → Bool
  two_le_windowFloor : 2 ≤ windowFloor
  linearPoolMinSlots_pos : 0 < linearPoolMinSlots

/-! The model's tensors, for so many slots, pages or tokens. -/

def Config.conv (c : Config) (numSlots : ℕ) : ConvShape := { c.convShape with numSlots }

def Config.recurrent (c : Config) (numSlots : ℕ) : RecurrentShape :=
  { c.recurrentShape with numSlots }

def Config.full (c : Config) (numPages : ℕ) : Group :=
  { c.fullShape with outer := numPages, inner := c.pageSize }

def Config.swa (c : Config) (numTokens : ℕ) : Group :=
  { c.swaShape with outer := numTokens, inner := 1 }

structure Request where
  moeCacheSize : Option ℤ
  numPages : Option ℤ
  numMambaSlots : Option ℤ
  numSwaPages : Option ℤ

def Request.isEmpty (req : Request) : Bool :=
  req.moeCacheSize.isNone && req.numPages.isNone && req.numMambaSlots.isNone &&
    req.numSwaPages.isNone

def alignCeil (a b : ℕ) : ℕ := (a + b - 1) / b * b

def pageTableWidth (maxSeqLen pageSize : ℕ) : ℕ := alignCeil (alignCeil maxSeqLen pageSize) 32

def swaPagedNumTokens (c : Config) (override : Option ℕ) (numFullPages : ℕ)
    (numSwaPages : Option ℕ) : ℕ :=
  match numSwaPages.or override with
  | some target => max c.windowFloor target + 1
  | none => max c.windowFloor (c.byRatio numFullPages) + 1

def dsv4PoolSizes (c : Config) (override : Option ℕ) (numPages : ℕ) (numSwaPages : Option ℕ) :
    Sizes :=
  match numSwaPages.or override with
  | some target => ⟨numPages, min (min numPages (max c.windowFloor (target + 1))) numPages⟩
  | none => ⟨numPages, min (max c.windowFloor (c.byRatio numPages)) numPages⟩

/-! ### The pool of keys and values -/

/-- A tensor that is replaced as a whole. -/
structure Table where
  id : ℕ
  width : ℕ
  deriving DecidableEq

inductive KvPool
  | slabs (pool : SlabPool)
  | hybrid (pool : HybridPool)
  | dsv4 (pool : DSV4Pool)

def KvPool.supportsSwaRatio (c : Config) : KvPool → Bool
  | .slabs _ => false
  | .hybrid _ => c.cacheType == .swaRadix
  | .dsv4 _ => true

def KvPool.needsRebindOnRebuild : KvPool → Bool
  | .dsv4 _ => true
  | _ => false

/-- The window size of `HybridSWAKVCache.rebuild_from_config`. -/
def hybridSwaTokens (c : Config) (override : Option ℕ) (numPages : ℕ) (numSwaPages : Option ℕ) :
    ℕ :=
  if c.cacheType = .swaRadix then swaPagedNumTokens c override (numPages + 1) numSwaPages
    else c.naiveSwaNumTokens

/-- `rebuild_from_config`; each family adds its dummy page. -/
def KvPool.rebuildFromConfig (c : Config) (override : Option ℕ) (numPages : ℕ)
    (numSwaPages : Option ℕ) :
    Prog KvPool Unit := fun f kv =>
  match kv with
  | .slabs pool =>
    let r := SlabPool.rebuild (numPages + 1) f pool
    (r.1, r.2.1, .slabs r.2.2)
  | .hybrid pool =>
    let r := HybridPool.rebuild (numPages + 1) (hybridSwaTokens c override numPages numSwaPages) f
      pool
    (r.1, r.2.1, .hybrid r.2.2)
  | .dsv4 pool =>
    let r := DSV4Pool.rebuild (dsv4PoolSizes c override (numPages + 1) numSwaPages) f pool
    (r.1, r.2.1, .dsv4 r.2.2)

def KvPool.attachPageTable (table : Table) : KvPool → KvPool
  | .dsv4 pool => .dsv4 { pool with fullLocMap := table.id }
  | kv => kv

def KvPool.swaAvailable : KvPool → ℕ
  | .slabs _ => 0
  | .hybrid pool => pool.slots.swaFree.length
  | .dsv4 pool => pool.winFree

def KvPool.swaCapacity : KvPool → ℕ
  | .slabs _ => 0
  | .hybrid pool => pool.slots.swaNumTokens - 1
  | .dsv4 pool => pool.sizes.nWinPages - 1

/-! ### The engine -/

/-- `capture` is the backend's scratch, `graphs` what the runner holds; both are for a page table of
that width. -/
structure Engine where
  numPages : ℕ
  maxSeqLen : ℕ
  pageTable : Table
  nextTable : ℕ
  dummyFill : ℕ
  kv : KvPool
  moe : Option MoeCache
  linear : Option LinearStatePool
  override : Option ℕ
  capture : Option ℕ
  graphBsList : List ℕ
  graphs : Option ℕ
  teardownStarted : Bool

def account (e : Engine) (req : Request) : Account where
  targetMoe :=
    match req.moeCacheSize with
    | some n => n.toNat
    | none => (e.moe.map MoeCache.cacheSize).getD 0
  targetPages := (req.numPages.map Int.toNat).getD e.numPages
  targetMamba :=
    match req.numMambaSlots with
    | some n => some (n.toNat + 1)
    | none => e.linear.map LinearStatePool.numSlots
  window := (req.numSwaPages.map Int.toNat).or e.override
  current :=
    match e.kv with
    | .dsv4 pool => if req.numPages.isNone && req.numSwaPages.isNone then some pool.sizes else none
    | _ => none

/-- Whether a size is asked for that is as the check wants it, if one is asked for. -/
def asked (o : Option ℤ) (ok : ℤ → Bool) : Bool := o.all ok

/-- `validate_rebuild` of the pool family. -/
def Engine.poolAdmits (c : Config) (e : Engine) (req : Request) : Bool :=
  (match e.kv with
    | .dsv4 _ => asked req.numPages fun n => (c.windowFloor : ℤ) ≤ n
    | _ => true) &&
  c.fits (account e req)

def Engine.admits (c : Config) (e : Engine) (req : Request) : Bool :=
  asked req.moeCacheSize (fun n => e.moe.any fun cache => cache.validateRebuild n) &&
  asked req.numPages (fun n => 0 < n) &&
  asked req.numMambaSlots (fun n => e.linear.isSome && ((c.linearPoolMinSlots : ℤ) - 1 ≤ n)) &&
  asked req.numSwaPages (fun n => e.kv.supportsSwaRatio c && 0 < n) &&
  e.poolAdmits c req

/-- What is done for a size that is asked for. -/
def whenAsked {σ : Type} (o : Option ℤ) (m : ℕ → Prog σ Unit) : Prog σ Unit :=
  match o with
  | some n => m n.toNat
  | none => pure ()

def Engine.resizeKvPool (c : Config) (numPages : ℕ) (numSwaPages : Option ℕ) :
  Prog Engine Unit := do
  let e ← Faulting.read
  Faulting.onlyIf e.kv.needsRebindOnRebuild (step .markForRebind)
  Faulting.zoom Engine.kv (fun kv e => { e with kv })
    (KvPool.rebuildFromConfig c e.override numPages numSwaPages)
  Faulting.modify fun e => { e with numPages }

def Engine.refreshSeqState (c : Config) : Prog Engine Unit := do
  Faulting.modify fun e => { e with maxSeqLen := min c.maxSeqLen (e.numPages * c.pageSize) }
  let e ← Faulting.read
  let alignedMaxSeqLen := pageTableWidth e.maxSeqLen c.pageSize
  Faulting.onlyIf (alignedMaxSeqLen != e.pageTable.width) do
    step .pageTable
    Faulting.modify fun e =>
      { e with pageTable := ⟨e.nextTable, alignedMaxSeqLen⟩, nextTable := e.nextTable + 1 }
  step .dummyRow
  Faulting.modify fun e => { e with dummyFill := e.numPages * c.pageSize }
  step .attachPageTable
  Faulting.modify fun e => { e with kv := e.kv.attachPageTable e.pageTable }

/-- The constructor of `GraphRunner`: it captures a graph for each batch size of the list. -/
def Engine.captureGraphs (c : Config) : Prog Engine Unit := do
  let e ← Faulting.read
  let width := pageTableWidth e.maxSeqLen c.pageSize
  Faulting.onlyIf (!e.graphBsList.isEmpty) do
    Faulting.ensure .other e.capture.isNone
    step .initCapture
    Faulting.modify fun e => { e with capture := some width }
  step .graphCapture
  Faulting.modify fun e => { e with graphs := some width }

/-- The pool of keys and values is resized for a page count, or for a window at the current page
count. -/
def Engine.resizeNamedKv (c : Config) (req : Request) : Prog Engine Unit :=
  match req.numPages with
  | some n => Engine.resizeKvPool c n.toNat (req.numSwaPages.map Int.toNat)
  | none => whenAsked req.numSwaPages fun n => do
    let e ← Faulting.read
    Engine.resizeKvPool c e.numPages (some n)

/-- The resizes between the teardown and the capture. -/
def Engine.resizePools (c : Config) (req : Request) : Prog Engine Unit := do
  whenAsked req.numSwaPages fun n => Faulting.modify fun e => { e with override := some n }
  whenAsked req.moeCacheSize fun n =>
    Faulting.zoomSome .other Engine.moe (fun moe e => { e with moe := some moe })
      (MoeCache.rebuild n)
  Engine.resizeNamedKv c req
  whenAsked req.numMambaSlots fun n =>
    Faulting.zoomSome .other Engine.linear (fun linear e => { e with linear := some linear })
      (LinearStatePool.rebuild (n + 1))

def Engine.teardownAndResize (c : Config) (req : Request) : Prog Engine Unit := do
  Faulting.modify fun e => { e with teardownStarted := true }
  step .resetCapture
  Faulting.modify fun e => { e with capture := none }
  step .destroyGraphs
  Faulting.modify fun e => { e with graphs := none }
  Engine.resizePools c req
  Engine.refreshSeqState c
  step .memoryReadout
  Engine.captureGraphs c

def Engine.rebuildRuntimeCache (c : Config) (req : Request) : Prog Engine Unit := do
  Faulting.onlyIf (!req.isEmpty) do
    step .validate
    let e ← Faulting.read
    Faulting.ensure .rejected (e.admits c req)
    step .engineSync
    Engine.teardownAndResize c req

/-! ### Startup -/

/-- The expert cache that the configuration asks for. -/
structure MoeSpec where
  numExperts : ℕ
  numBanks : ℕ
  maxSlots : Option ℕ
  cacheSize : ℕ
  prefillOverlap : Bool

/-- `OffloadMoeCache`, with its banks. -/
def MoeCache.create (spec : MoeSpec) : MoeCache where
  numExperts := spec.numExperts
  numBanks := spec.numBanks
  maxSlots := spec.maxSlots
  cacheSize := spec.cacheSize
  bankCaches := fun i => if i < spec.numBanks then some spec.cacheSize else none
  idOfSlot := spec.cacheSize
  usage := spec.cacheSize
  evictSlots := max spec.numExperts spec.cacheSize
  srcIndices := max spec.numExperts spec.cacheSize
  prefillOverlap := spec.prefillOverlap
  prefillBuffers := if spec.prefillOverlap then some spec.cacheSize else none

/-- The constructor of `LinearStatePool`. -/
def LinearStatePool.create (c : Config) (numSpecs numSlots : ℕ) : LinearStatePool where
  convStates := some (c.conv numSlots)
  recurrentStates := some (c.recurrent numSlots)
  numSpecs
  slotStates := fun i => if i < numSpecs then some numSlots else none
  numSlots
  freeSlots := poolSlots numSlots

inductive PoolSpec
  | slabs (family : Family)
  | hybrid
  | dsv4

/-- `create_kv_pool`. -/
def KvPool.create (c : Config) (override : Option ℕ) (numPages : ℕ) : PoolSpec → KvPool
  | .slabs family =>
    .slabs
      { family
        numPages := numPages + 1
        slab := fun slab => if slab ∈ family.base ++ family.index then some (numPages + 1)
          else none }
  | .hybrid =>
    let tokens := hybridSwaTokens c override numPages none
    .hybrid
      { full := some (c.full (numPages + 1))
        swa := some (c.swa tokens)
        slots := HybridSWAKVCache.create (numPages + 1) c.pageSize (some tokens) }
  | .dsv4 =>
    let sizes := dsv4PoolSizes c override (numPages + 1) none
    .dsv4 { sizes, slab := fun _ => some sizes, winFree := sizes.nWinPages - 1, fullLocMap := 0 }

/-- What is decided before the engine is there, with what startup asserts and raises on. -/
structure Boot (c : Config) where
  numPages : ℕ
  pool : PoolSpec
  override : Option ℕ
  moe : Option MoeSpec
  numSlots : Option ℕ
  numSpecs : ℕ
  graphBsList : List ℕ
  prefillChunkBudget : Option ℕ
  one_lt_numPages : 1 < numPages
  moe_valid : ∀ spec ∈ moe, (MoeCache.create spec).validateRebuild spec.cacheSize = true
  moe_room : ∀ spec ∈ moe, spec.prefillOverlap = true → 2 * spec.numExperts ≤ spec.cacheSize
  slots_room : ∀ n ∈ numSlots, c.linearPoolMinSlots ≤ n
  resolved : c.cacheType = .swaRadix → numSlots = none

/-- The constructor of `Engine`. -/
def Engine.create (c : Config) (b : Boot c) : Engine :=
  let maxSeqLen := min c.maxSeqLen (b.numPages * c.pageSize)
  let alignedMaxSeqLen := pageTableWidth maxSeqLen c.pageSize
  let pageTable : Table := ⟨0, alignedMaxSeqLen⟩
  { numPages := b.numPages
    maxSeqLen
    pageTable
    nextTable := 1
    dummyFill := b.numPages * c.pageSize
    kv := (KvPool.create c b.override b.numPages b.pool).attachPageTable pageTable
    moe := b.moe.map MoeCache.create
    linear := b.numSlots.map (LinearStatePool.create c b.numSpecs)
    override := b.override
    capture := if b.graphBsList.isEmpty then none else some alignedMaxSeqLen
    graphBsList := b.graphBsList
    graphs := some alignedMaxSeqLen
    teardownStarted := false }

end FreeToken.CacheRebuild
