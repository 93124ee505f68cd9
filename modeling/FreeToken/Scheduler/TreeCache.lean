import FreeToken.KvCache.HybridRadixCache
import FreeToken.KvCache.PoolRebuild
import FreeToken.KvCache.SWARadixCache
import FreeToken.Scheduler.Prefill

/-!
# `CacheManager` with a second currency

The branches of `CacheManager` under `is_hybrid`, whose tree owns linear-state slots, and under
`is_swa`, whose slots are backed by a window pool.  `H` is the heap of the evictions; `none` is a
failed assertion or an error.
-/

namespace FreeToken

open RadixTreeNode

/-! ### Linear attention -/

structure HybridCacheHandle where
  cachedLen : ℕ
  node : Path
  kvIndices : List Slot
deriving DecidableEq

instance : BaseCacheHandle HybridCacheHandle :=
  ⟨HybridCacheHandle.cachedLen, HybridCacheHandle.node⟩

/-- `CacheManager` under `is_hybrid`. -/
structure HybridCacheManager (H : Heapq timestamp) extends PageState where
  prefixCache : HybridRadixCache
  /-- The free slots of `linear_state_pool`. -/
  stateSlots : List ℕ

namespace HybridCacheManager

variable {H : Heapq timestamp}

/-- A manager of `numPages` free pages and `numSlots` state slots, the first of which is padding. -/
def init (H : Heapq timestamp) (pageSize numPages numSlots : ℕ) (pageTable : PageTable) :
    HybridCacheManager H :=
  { PageState.init pageSize numPages pageTable with
    prefixCache := { pageSize }
    stateSlots := List.range' 1 (numSlots - 1) }

variable (m : HybridCacheManager H)

def matchReq (inputIds : List Token) (tic : ℤ) :
    HybridCacheManager H × HybridCacheHandle × Option ℕ :=
  let (prefixCache, r) := m.prefixCache.matchPrefix (inputIds.take (inputIds.length - 1)) tic
  ({ m with prefixCache }, ⟨r.cachedLen, r.node, r.kvIndices⟩, r.mambaValue)

def availableSize : ℤ := m.prefixCache.full.evictable + m.freeSlots.length * m.pageSize

def lock (handle : HybridCacheHandle) : HybridCacheManager H :=
  { m with prefixCache := m.prefixCache.incLock handle.node }

def unlock (handle : HybridCacheHandle) : HybridCacheManager H :=
  { m with prefixCache := m.prefixCache.decLock handle.node }

def free (indices : List Slot) : HybridCacheManager H :=
  { m with toPageState := m.toPageState.free indices }

/-- The loop of `ensure_mamba_slots`; a round that does not end it takes a snapshot out of the tree.
-/
def ensureLoop (n : ℕ) : ℕ → HybridCacheManager H → HybridCacheManager H
  | 0, m => m
  | fuel + 1, m =>
    if m.stateSlots.length < n then
      let (prefixCache, er) := m.prefixCache.evictMamba H (n - m.stateSlots.length)
      let m := { m with prefixCache }
      if er.mambaSlots = [] then m
      else ensureLoop n fuel
        ({ m with stateSlots := m.stateSlots ++ er.mambaSlots }.free er.kvIndices)
    else m

def ensureMambaSlots (n : ℕ) : HybridCacheManager H :=
  ensureLoop n (m.prefixCache.nodes.length + 1) m

/-- `linear_state_pool.alloc`, which pops the last slots. -/
def allocSlots (n : ℕ) : HybridCacheManager H × List ℕ :=
  ({ m with stateSlots := m.stateSlots.take (m.stateSlots.length - n) }, m.stateSlots.reverse.take
    n)

/-- `linear_state_pool.free`. -/
def freeStateSlots (slots : List ℕ) : HybridCacheManager H :=
  { m with stateSlots := m.stateSlots ++ slots }

/-- The eviction of `_allocate`, which gives back both currencies. -/
def evictFull (neededPages : ℕ) : HybridCacheManager H :=
  if m.freeSlots.length < neededPages then
    let (prefixCache, er) :=
      m.prefixCache.evictFull H ((neededPages - m.freeSlots.length) * m.pageSize)
    { m with
      prefixCache
      stateSlots := m.stateSlots ++ er.mambaSlots
      freeSlots := m.freeSlots ++ stride m.pageSize er.kvIndices }
  else m

/-- `_allocate`; `none` is the failed assertion "Eviction did not free enough space". -/
def allocate (neededPages : ℕ) : Option (HybridCacheManager H × List Slot) :=
  let m := m.evictFull neededPages
  if neededPages ≤ m.freeSlots.length then
    some ({ m with freeSlots := m.freeSlots.drop neededPages }, m.freeSlots.take neededPages)
  else none

def allocatePaged (reqs : List (Req HybridCacheHandle)) : Option (HybridCacheManager H) :=
  let needed := neededPages (allocationInfo m.pageSize reqs)
  if 0 < needed then
    (m.allocate needed).map fun (m, pages) =>
      { m with toPageState := m.toPageState.writePages pages reqs }
  else some m

/-! ### Committing snapshots -/

/-- The ping-pong slot that the last snapshot was written to. -/
def frozenSlot (req : Req HybridCacheHandle) (pingPong : ℕ × ℕ) : ℕ :=
  if req.mambaNextTrackIdx = 0 then pingPong.2 else pingPong.1

/-- Insert the first `len` tokens of a request with a snapshot at their end. -/
def insert (req : Req HybridCacheHandle) (len mambaValue : ℕ) (tic now : ℤ) :
    HybridCacheManager H × ℕ × Bool :=
  let pageIndices := m.pageTable.row req.tableIdx 0 req.cachedLen
  let (prefixCache, r) :=
    m.prefixCache.insert (req.inputIds.take len) (pageIndices.take len) mambaValue tic now
  ({ m with prefixCache }, r)

/-- Match the committed part of a request again, name its pages in the row and lock it. -/
def relock (req : Req HybridCacheHandle) (len prefixLen : ℕ) (tic : ℤ) :
    HybridCacheManager H × HybridCacheHandle :=
  let old := req.cacheHandle.cachedLen
  let (prefixCache, r) := m.prefixCache.matchPrefix (req.inputIds.take len) tic
  let m := { m with prefixCache }
  let m := if old < prefixLen then
      { m with toPageState := m.toPageState.writeRow req.tableIdx old
                 ((r.kvIndices.take prefixLen).drop old) }
    else m
  let handle := ⟨r.cachedLen, r.node, r.kvIndices⟩
  (m.lock handle, handle)

/-- Replace the ping-pong slot that the tree has taken. -/
def replaceFrozen (req : Req HybridCacheHandle) (pingPong : ℕ × ℕ) :
    Option (HybridCacheManager H × ℕ × ℕ) :=
  let m := m.ensureMambaSlots 1
  (m.allocSlots 1).2.head?.map fun slot =>
    ((m.allocSlots 1).1,
      if req.mambaNextTrackIdx = 0 then (pingPong.1, slot) else (slot, pingPong.2))

/-- `_cache_req_hybrid` of an unfinished request; `tics` are the clock readings. -/
def cacheReq (req : Req HybridCacheHandle) (tics : ℕ → ℤ) :
    Option (HybridCacheManager H × Req HybridCacheHandle) :=
  match req.mambaLastTrackSeqlen with
  | none => some (m, req)
  | some len =>
    if alignDown len m.pageSize ≠ len then some (m, { req with mambaLastTrackSeqlen := none })
    else
      req.mambaPingPong.bind fun pingPong =>
        let (m, prefixLen, mambaExist) :=
          m.insert req len (frozenSlot req pingPong) (tics 0) (tics 1)
        let m := m.unlock req.cacheHandle
        let pageIndices := m.pageTable.row req.tableIdx 0 req.cachedLen
        let m := m.free ((pageIndices.take prefixLen).drop req.cacheHandle.cachedLen)
        -- locked before the slot is replaced, which may evict what is not locked
        let (m, cacheHandle) := m.relock req len prefixLen (tics 2)
        if mambaExist then some (m, { req with cacheHandle, mambaLastTrackSeqlen := none })
        else
          (m.replaceFrozen req pingPong).map fun (m, pingPong) =>
            (m, { req with
              cacheHandle
              mambaPingPong := some pingPong
              mambaLastTrackSeqlen := none })

/-- The pending snapshot of a finished request: the manager, the ping-pong slots left and the end of
what the tree has taken over. -/
def donateFrozen (req : Req HybridCacheHandle) (tics : ℕ → ℤ) :
    HybridCacheManager H × Option (ℕ × ℕ) × ℕ :=
  let old := req.cacheHandle.cachedLen
  match req.mambaLastTrackSeqlen, req.mambaPingPong with
  | some len, some pingPong =>
    if 0 < len ∧ len ≤ req.cachedLen ∧ alignDown len m.pageSize = len then
      let frozen := frozenSlot req pingPong
      let (m, prefixLen, mambaExist) := m.insert req len frozen (tics 0) (tics 1)
      let m := m.freeStateSlots ([pingPong.1, pingPong.2].filter fun s => mambaExist || s ≠ frozen)
      let pageIndices := m.pageTable.row req.tableIdx 0 req.cachedLen
      (m.free ((pageIndices.take (max old prefixLen)).drop old), none, max old len)
    else (m, some pingPong, old)
  | _, pingPong => (m, pingPong, old)

def freeReqSlots (pingPong : Option (ℕ × ℕ)) (live : Option ℕ) : HybridCacheManager H :=
  m.freeStateSlots ((pingPong.toList.flatMap fun (x, y) => [x, y]) ++ live.toList)

/-- `_cache_req_hybrid` of a finished request. -/
def cacheReqFinished (req : Req HybridCacheHandle) (tics : ℕ → ℤ) : Option (HybridCacheManager H) :=
  let (m, pingPong, freeUpto) := m.donateFrozen req tics
  let pageIndices := m.pageTable.row req.tableIdx 0 req.cachedLen
  let insertLen := alignDown req.cachedLen m.pageSize
  if insertLen = req.cachedLen ∧ 0 < insertLen then
    req.linearSlotIdx.map fun live =>
      let (m, prefixLen, mambaExist) := m.insert req insertLen live (tics 2) (tics 3)
      let m := (m.unlock req.cacheHandle).free
        ((pageIndices.take (max freeUpto prefixLen)).drop freeUpto)
      m.freeReqSlots pingPong (if mambaExist then some live else none)
  else
    some (((m.unlock req.cacheHandle).free (pageIndices.drop freeUpto)).freeReqSlots pingPong
      req.linearSlotIdx)

end HybridCacheManager

instance {H : Heapq timestamp} : PrefillCache (HybridCacheManager H) HybridCacheHandle where
  pageSize m := m.pageSize
  matchReq := HybridCacheManager.matchReq
  availableSize := HybridCacheManager.availableSize
  lock m handle := (m.lock handle, handle)
  unlock := HybridCacheManager.unlock
  isHybrid _ := true
  numFreeSlots m := m.stateSlots.length
  ensureMambaSlots := HybridCacheManager.ensureMambaSlots
  allocSlots := HybridCacheManager.allocSlots
  freeStateSlots := HybridCacheManager.freeStateSlots
  swaPaged _ := false
  slidingWindowSize _ := 0
  swaAvailableSize _ := 0
  prefillChunkAlign m := m.pageSize
  writeMatched m idx handle :=
    { m with toPageState := m.toPageState.writeRow idx 0 handle.kvIndices }

/-! ### Sliding window -/

structure SWACacheHandle where
  cachedLen : ℕ
  node : Path
  kvIndices : List Slot
  swaUuid : Option ℕ := none
deriving DecidableEq

instance : BaseCacheHandle SWACacheHandle := ⟨SWACacheHandle.cachedLen, SWACacheHandle.node⟩

def swaRetainGap : ℕ := 16

/-- `CacheManager` under `is_swa`. -/
structure SWACacheManager (H : Heapq timestamp) extends PageState where
  prefixCache : SWARadixCache
  swaPool : HybridSWAKVCache

namespace SWACacheManager

variable {H : Heapq timestamp}

/-- A manager of `numPages` free pages over the window pool `swaPool`. -/
def init (H : Heapq timestamp) (pageSize numPages slidingWindowSize : ℕ) (pageTable : PageTable)
    (swaPool : HybridSWAKVCache) : SWACacheManager H :=
  { PageState.init pageSize numPages pageTable with
    prefixCache := { pageSize, slidingWindowSize }
    swaPool }

variable (m : SWACacheManager H)

/-- Match a sequence: the manager and a handle that is not locked yet. -/
def matchPrefix (inputIds : List Token) : SWACacheManager H × SWACacheHandle :=
  let (prefixCache, r) := m.prefixCache.matchPrefix inputIds
  ({ m with prefixCache }, { cachedLen := r.cachedLen, node := r.node, kvIndices := r.kvIndices })

def matchReq (inputIds : List Token) : SWACacheManager H × SWACacheHandle :=
  m.matchPrefix (inputIds.take (inputIds.length - 1))

def availableSize : ℤ := m.prefixCache.full.evictable + m.freeSlots.length * m.pageSize

def swaAvailableSize : ℤ := m.swaPool.swaAvailableSize + m.prefixCache.swa.evictable

/-- The manager and the handle with its `swa_uuid`. -/
def lock (handle : SWACacheHandle) : SWACacheManager H × SWACacheHandle :=
  let (prefixCache, swaUuid) := m.prefixCache.incLock handle.node
  ({ m with prefixCache }, { handle with swaUuid })

def unlock (handle : SWACacheHandle) : SWACacheManager H :=
  { m with prefixCache := m.prefixCache.decLock handle.node handle.swaUuid false }

def free (indices : List Slot) : SWACacheManager H :=
  { m with toPageState := m.toPageState.free indices }

def freeSwa (indices : List Slot) : SWACacheManager H :=
  { m with swaPool := m.swaPool.freeSwa indices }

/-- The loop of `ensure_swa_slots`; a round that does not end it takes window copies out of the
tree. -/
def ensureLoop (n : ℕ) : ℕ → SWACacheManager H → SWACacheManager H
  | 0, m => m
  | fuel + 1, m =>
    if m.swaPool.swaAvailableSize < n then
      let (prefixCache, ev) := m.prefixCache.evictSwa H (n - m.swaPool.swaAvailableSize)
      let m := { m with prefixCache }
      if ev.swaIndices = [] then m
        else ensureLoop n fuel ((m.freeSwa ev.swaIndices).free ev.kvIndices)
    else m

def ensureSwaSlots (n : ℕ) : SWACacheManager H := ensureLoop n (m.prefixCache.nodes.length + 1) m

/-- The eviction of `_allocate`, which gives back both currencies. -/
def evictFull (neededPages : ℕ) : SWACacheManager H :=
  if m.freeSlots.length < neededPages then
    let (prefixCache, ev) :=
      m.prefixCache.evictFull H ((neededPages - m.freeSlots.length) * m.pageSize)
    { m with
      prefixCache
      swaPool := m.swaPool.freeSwa ev.swaIndices
      freeSlots := m.freeSlots ++ stride m.pageSize ev.kvIndices }
  else m

/-- `_allocate`; `none` is the failed assertion "Eviction did not free enough space". -/
def allocate (neededPages : ℕ) : Option (SWACacheManager H × List Slot) :=
  let m := m.evictFull neededPages
  if neededPages ≤ m.freeSlots.length then
    some ({ m with freeSlots := m.freeSlots.drop neededPages }, m.freeSlots.take neededPages)
  else none

/-- `allocate_paged`; `none` may be an exhausted window pool too. -/
def allocatePaged (reqs : List (Req SWACacheHandle)) : Option (SWACacheManager H) :=
  let needed := neededPages (allocationInfo m.pageSize reqs)
  if 0 < needed then
    (m.allocate needed).bind fun (m, pages) =>
      let allocated := pageToToken m.pageSize pages
      let m := m.ensureSwaSlots allocated.length
      (m.swaPool.allocSwa allocated).map fun swaPool =>
        { m with swaPool, toPageState := m.toPageState.writePages pages reqs }
  else some m

/-- The insertion of `_cache_req_swa`, with the old handle unlocked: what the tree does not keep
goes back to both pools. -/
def insert (req : Req SWACacheHandle) : SWACacheManager H :=
  let pageIndices := m.pageTable.row req.tableIdx 0 req.cachedLen
  let insertLen := alignDown req.cachedLen m.pageSize
  if 0 < insertLen then
    let (prefixCache, _, freed) := m.prefixCache.insert (req.inputIds.take insertLen)
      (pageIndices.take insertLen) req.swaEvictedSeqlen req.cacheHandle.cachedLen
    (({ m with prefixCache }.unlock req.cacheHandle).freeSwa freed).free freed
  else m.unlock req.cacheHandle

/-- The trailing window of the first `len` tokens, with the gap, starts here. -/
def keepFrom (len : ℕ) : ℕ :=
  alignDown (len - m.prefixCache.slidingWindowSize - swaRetainGap) m.pageSize

/-- `_cache_req_swa` of an unfinished request. -/
def cacheReq (req : Req SWACacheHandle) : SWACacheManager H × Req SWACacheHandle :=
  let insertLen := alignDown req.cachedLen m.pageSize
  let m := m.insert req
  let keepFrom := m.keepFrom insertLen
  -- a node boundary a window back, so that the lock lands on the window alone
  let m := if 0 < keepFrom then (m.matchPrefix (req.inputIds.take keepFrom)).1 else m
  let (m, handle) := m.matchPrefix (req.inputIds.take insertLen)
  let m := if 0 < handle.cachedLen then
      { m with toPageState := m.toPageState.writeRow req.tableIdx 0 handle.kvIndices }
    else m
  let (m, cacheHandle) := m.lock handle
  (m, { req with cacheHandle })

/-- Trim the head of the prompt and stamp its trailing window. -/
def retainPrompt (req : Req SWACacheHandle) : SWACacheManager H :=
  let promptLen := alignDown (req.maxDeviceLen - req.outputLen) m.pageSize
  if 0 < promptLen then
    let keepFrom := m.keepFrom promptLen
    let m := if 0 < keepFrom then
        let (prefixCache, out) := m.prefixCache.trimHeadSwa (req.inputIds.take promptLen) keepFrom
        { m with prefixCache }.freeSwa out
      else m
    (m.matchPrefix (req.inputIds.take promptLen)).1
  else m

/-- `_cache_req_swa` of a finished request. -/
def cacheReqFinished (req : Req SWACacheHandle) : SWACacheManager H :=
  let m := m.insert req
  let tail := m.paddedTail req (alignDown req.cachedLen m.pageSize)
  ((m.freeSwa tail).free tail).retainPrompt req

end SWACacheManager

instance {H : Heapq timestamp} : PrefillCache (SWACacheManager H) SWACacheHandle where
  pageSize m := m.pageSize
  matchReq m ids _ := let r := m.matchReq ids; (r.1, r.2, none)
  availableSize := SWACacheManager.availableSize
  lock := SWACacheManager.lock
  unlock := SWACacheManager.unlock
  isHybrid _ := false
  numFreeSlots _ := 0
  ensureMambaSlots m _ := m
  allocSlots m _ := (m, [])
  freeStateSlots m _ := m
  swaPaged _ := true
  slidingWindowSize m := m.prefixCache.slidingWindowSize
  swaAvailableSize := SWACacheManager.swaAvailableSize
  prefillChunkAlign _ := 1
  writeMatched m idx handle :=
    { m with toPageState := m.toPageState.writeRow idx 0 handle.kvIndices }

end FreeToken
