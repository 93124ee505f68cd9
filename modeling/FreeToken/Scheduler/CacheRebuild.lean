import FreeToken.Engine.RuntimeCache

/-!
# The scheduler's side of a cache rebuild

A request is kept until the scheduler is idle, and is then carried out by `executePendingRebuild`: a
failure after the point of no return is answered by a rebuild back to the sizes from before.
-/

namespace FreeToken.CacheRebuild

/-! ### The managers -/

/-- The page manager.  `prefixPages`, `treeSlots` and `treeSwa` are what the prefix cache holds:
page slots, state slots and window units. -/
structure CacheManager where
  prefillChunkBudget : Option ℕ
  numPages : ℕ
  pageTable : Table
  freeSlots : List ℕ
  prefixPages : List ℕ
  treeSlots : List ℕ
  treeSwa : ℕ

structure TableManager where
  maxRunningReqs : ℕ
  pageTable : Table
  tokenPool : Table
  freeSlots : List ℕ

inductive Mode
  | ifIdle
  | drain
  deriving DecidableEq

inductive Status
  | ok
  | rejected
  | failed
  | busy
  | unsupported
  deriving DecidableEq

/-- `CacheRebuildBackendMsg`. -/
structure RebuildMsg where
  requestId : ℕ
  mode : Mode
  request : Request

@[ext] structure Geometry where
  moeCacheSize : Option ℕ
  numPages : ℕ
  numMambaSlots : Option ℕ
  numSwaPages : Option ℕ
  deriving DecidableEq

/-- `CacheRebuildResultMsg`. -/
structure RebuildResult where
  requestId : ℕ
  status : Status
  moeCacheSize : ℕ
  numPages : ℕ
  mambaSlots : ℕ
  numSwaPages : ℕ

structure Scheduler where
  engine : Engine
  cache : CacheManager
  table : TableManager
  tokenPool : Table
  prefillBudget : ℕ
  runnable : Bool
  pendingRebuild : Option RebuildMsg
  sent : List RebuildResult

def currentCacheGeometry (c : Config) (e : Engine) : Geometry where
  moeCacheSize := e.moe.map MoeCache.cacheSize
  numPages := e.numPages
  numMambaSlots := e.linear.map fun pool => pool.numSlots - 1
  numSwaPages :=
    match e.kv with
    | .slabs _ => none
    | .hybrid pool => if c.cacheType = .swaRadix then some (pool.slots.swaNumTokens - 1) else none
    | .dsv4 pool => some (pool.sizes.nWinPages - 1)

/-- A size of the snapshot, if the request names it. -/
def priorOf (asked : Option ℤ) (current : Option ℕ) : Option ℤ :=
  asked.bind fun _ => current.map Nat.cast

/-- `prior`: the request that the rollback makes. -/
def priorRequest (c : Config) (e : Engine) (req : Request) : Request where
  moeCacheSize := priorOf req.moeCacheSize (currentCacheGeometry c e).moeCacheSize
  numPages := priorOf req.numPages (some (currentCacheGeometry c e).numPages)
  numMambaSlots := priorOf req.numMambaSlots (currentCacheGeometry c e).numMambaSlots
  numSwaPages := priorOf req.numSwaPages (currentCacheGeometry c e).numSwaPages

/-! ### Rebuilding -/

def pageSlots (numPages pageSize : ℕ) : List ℕ := (List.range numPages).map (· * pageSize)

/-- `CacheManager.rebuild`. -/
def Scheduler.rebuildCacheManager (c : Config) : Prog Scheduler Unit := do
  Faulting.modify fun s =>
    { s with cache :=
      { s.cache with numPages := s.engine.numPages, pageTable := s.engine.pageTable } }
  step .freeSlots
  Faulting.modify fun s =>
    { s with cache := { s.cache with freeSlots := pageSlots s.engine.numPages c.pageSize } }
  step .prefixCache
  Faulting.modify fun s =>
    { s with cache := { s.cache with prefixPages := [], treeSlots := [], treeSwa := 0 } }
  Faulting.modify fun s =>
    if c.cacheType = .hybridRadix then
      { s with engine :=
        { s.engine with linear := s.engine.linear.map LinearStatePool.reclaimAllSlots } }
    else s

/-- `TableManager.rebuild`, and the scheduler's view of the token pool. -/
def Scheduler.rebuildTableManager : Prog Scheduler Unit := do
  Faulting.modify fun s => { s with table := { s.table with pageTable := s.engine.pageTable } }
  step .tokenPool
  Faulting.modify fun s =>
    { s with
      table := { s.table with
        tokenPool := ⟨s.engine.nextTable, s.engine.pageTable.width⟩, freeSlots :=
          List.range s.table.maxRunningReqs }
      engine := { s.engine with nextTable := s.engine.nextTable + 1 } }
  Faulting.modify fun s => { s with tokenPool := s.table.tokenPool }

/-- What `check_integrity` asserts of the pool that the prefix cache shares. -/
def Scheduler.secondCurrency (c : Config) (s : Scheduler) : Bool :=
  match c.cacheType with
  | .hybridRadix => s.engine.linear.all fun pool => pool.freeSlots.length +
    s.cache.treeSlots.length ≤ pool.numSlots - 1
  | .swaRadix => s.engine.kv.swaAvailable + s.cache.treeSwa == s.engine.kv.swaCapacity
  | _ => true

/-- The assertions of `check_integrity`. -/
def Scheduler.integral (c : Config) (s : Scheduler) : Bool :=
  s.secondCurrency c && s.cache.freeSlots.length + s.cache.prefixPages.length == s.cache.numPages &&
    s.cache.freeSlots.all fun slot => slot % c.pageSize == 0

def Scheduler.checkIntegrity (c : Config) : Prog Scheduler Unit := do
  let s ← Faulting.read
  Faulting.ensure .other (s.integral c)

def prefillCap (c : Config) (budget : Option ℕ) : ℕ :=
  match budget with
  | some cap => if cap = 0 then c.maxExtendTokens else min c.maxExtendTokens cap
  | none => c.maxExtendTokens

def Scheduler.rebuildManagers (c : Config) (req : Request) : Prog Scheduler Unit := do
  Faulting.onlyIf (req.numPages.isSome || req.numMambaSlots.isSome || req.numSwaPages.isSome) do
    Scheduler.rebuildCacheManager c
    Faulting.onlyIf req.numPages.isSome Scheduler.rebuildTableManager
    Scheduler.checkIntegrity c
  Faulting.modify fun s => { s with prefillBudget := prefillCap c s.cache.prefillChunkBudget }

def Scheduler.onEngine {α : Type} (m : Prog Engine α) : Prog Scheduler α :=
  Faulting.zoom Scheduler.engine (fun engine s => { s with engine }) m

/-- `rebuild_cache`, for one rank. -/
def Scheduler.rebuildCache (c : Config) (req : Request) : Prog Scheduler Unit := do
  let s ← Faulting.read
  Faulting.ensure .other (!s.runnable)
  step .idleSync
  Scheduler.onEngine (Engine.rebuildRuntimeCache c req)
  Scheduler.rebuildManagers c req

/-- The result of a request; what is missing is reported as 0. -/
def rebuildResult (c : Config) (e : Engine) (requestId : ℕ) (status : Status) : RebuildResult :=
  let geo := currentCacheGeometry c e
  { requestId, status
    moeCacheSize := geo.moeCacheSize.getD 0
    numPages := geo.numPages
    mambaSlots := geo.numMambaSlots.getD 0
    numSwaPages := geo.numSwaPages.getD 0 }

def Scheduler.replyRebuild (c : Config) (s : Scheduler) (requestId : ℕ) (status : Status) :
    Scheduler :=
  { s with sent := s.sent ++ [rebuildResult c s.engine requestId status] }

/-- `_process_one_msg`, for a rebuild. -/
def Scheduler.onCacheRebuild (c : Config) (s : Scheduler) (msg : RebuildMsg) : Scheduler :=
  if msg.mode ≠ .ifIdle then s.replyRebuild c msg.requestId .unsupported
  else if 1 < c.tpSize then s.replyRebuild c msg.requestId .unsupported
  else if s.runnable then s.replyRebuild c msg.requestId .busy
  else { s with pendingRebuild := some msg }

/-- `_execute_pending_rebuild`, while the fault `f` is armed. -/
def Scheduler.executePendingRebuild (c : Config) (f : Option Point) (s : Scheduler) : Scheduler :=
  match s.pendingRebuild with
  | none => s
  | some msg =>
    let prior := priorRequest c s.engine msg.request
    let s := { s with pendingRebuild := none, engine := { s.engine with teardownStarted := false } }
    match Scheduler.rebuildCache c msg.request f s with
    | (.ok (), _, s) => s.replyRebuild c msg.requestId .ok
    | (.error .rejected, _, s) => s.replyRebuild c msg.requestId .rejected
    | (.error .other, f, s) =>
      if !s.engine.teardownStarted then s.replyRebuild c msg.requestId .rejected
      else if 1 < c.tpSize then s.replyRebuild c msg.requestId .failed
      else
        match Scheduler.rebuildCache c prior f s with
        | (.ok (), _, s) => s.replyRebuild c msg.requestId .rejected
        | (.error _, _, s) => s.replyRebuild c msg.requestId .failed

/-! ### The server between two rebuilds -/

/-- The constructor of `Scheduler`. -/
def Scheduler.create (c : Config) (b : Boot c) : Scheduler :=
  let engine := Engine.create c b
  let tokenPool : Table := ⟨engine.nextTable, engine.pageTable.width⟩
  { engine := { engine with nextTable := engine.nextTable + 1 }
    cache :=
      { prefillChunkBudget := b.prefillChunkBudget
        numPages := engine.numPages
        pageTable := engine.pageTable
        freeSlots := pageSlots engine.numPages c.pageSize
        prefixPages := []
        treeSlots := []
        treeSwa := 0 }
    table :=
      { maxRunningReqs := c.maxRunningReq
        pageTable := engine.pageTable
        tokenPool
        freeSlots := List.range c.maxRunningReq }
    tokenPool
    prefillBudget := prefillCap c b.prefillChunkBudget
    runnable := false
    pendingRebuild := none
    sent := [] }

/-- What serving has handed out and taken back, once the scheduler is idle again. -/
structure Holdings where
  freeSlots : List ℕ
  prefixPages : List ℕ
  treeSlots : List ℕ
  treeSwa : ℕ
  stateSlots : List ℕ
  swaFree : List ℤ
  fullToSwa : ℕ → ℤ
  winFree : ℕ
  rows : List ℕ

def KvPool.withWindow (h : Holdings) : KvPool → KvPool
  | .slabs pool => .slabs pool
  | .hybrid pool =>
    .hybrid { pool with slots :=
      { pool.slots with swaFree := h.swaFree, fullToSwaIndexMapping := h.fullToSwa } }
  | .dsv4 pool => .dsv4 { pool with winFree := h.winFree }

/-- Serving moves slots between the free lists and the prefix cache, and leaves the tensors as they
are. -/
def Scheduler.serve (s : Scheduler) (h : Holdings) : Scheduler :=
  { s with
    engine := { s.engine with
      kv := s.engine.kv.withWindow h
      linear := s.engine.linear.map fun pool => { pool with freeSlots := h.stateSlots } }
    cache := { s.cache with
      freeSlots := h.freeSlots, prefixPages := h.prefixPages, treeSlots := h.treeSlots, treeSwa :=
        h.treeSwa }
    table := { s.table with freeSlots := h.rows } }

end FreeToken.CacheRebuild
