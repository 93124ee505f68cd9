import FreeToken.KvCache.RadixCache
import FreeToken.Scheduler.Table

/-!
# `CacheManager`, plain

The cache manager of models without a second currency, over the naive or the radix prefix cache,
and the admission of a request.  Clock readings of the prefix cache are arguments.
-/

namespace FreeToken

open RadixTreeNode

instance : BaseCacheHandle RadixCacheHandle := ⟨RadixCacheHandle.cachedLen, RadixCacheHandle.node⟩

/-! ### The prefix cache -/

/-- The caches of `create_prefix_cache`: `NaivePrefixCache`, which caches nothing, and
`RadixPrefixCache`. -/
inductive PrefixCache where
  | naive
  | radix (c : RadixPrefixCache)
deriving DecidableEq, Repr

namespace PrefixCache

def matchPrefix (c : PrefixCache) (ids : List Token) (tic : ℤ) : PrefixCache × RadixCacheHandle :=
  match c with
  | naive => (naive, ⟨0, []⟩)
  | radix c => let r := c.matchPrefix ids tic; (radix r.1, r.2)

def insertPrefix (c : PrefixCache) (ids : List Token) (indices : List Slot) (tic now : ℤ) :
    PrefixCache × ℕ × RadixCacheHandle :=
  match c with
  | naive => (naive, 0, ⟨0, []⟩)
  | radix c => let r := c.insertPrefix ids indices tic now; (radix r.1, r.2)

def lockHandle (c : PrefixCache) (handle : RadixCacheHandle) (unlock : Bool) : PrefixCache :=
  match c with
  | naive => naive
  | radix c => radix (c.lockHandle handle unlock)

/-- `get_matched_indices` of a handle. -/
def matchedIndices (c : PrefixCache) (handle : RadixCacheHandle) : List Slot :=
  match c with
  | naive => []
  | radix c => c.matchedIndices handle

/-- `evict`; `none` is a failed assertion, or the error of the naive cache. -/
def evict (c : PrefixCache) (H : Heapq timestamp) (size : ℕ) : Option (PrefixCache × List Slot) :=
  match c with
  | naive => if size = 0 then some (naive, []) else none
  | radix c => (c.evict H size).map fun r => (radix r.1, r.2)

def sizeInfo (c : PrefixCache) : KvSizes :=
  match c with
  | naive => {}
  | radix c => c.sizes

end PrefixCache

/-! ### The manager -/

/-- `CacheManager` over a plain prefix cache. -/
structure CacheManager extends PageState where
  prefixCache : PrefixCache

namespace CacheManager

/-- A manager of `numPages` free pages. -/
def init (pageSize numPages : ℕ) (pageTable : PageTable) (prefixCache : PrefixCache) :
    CacheManager :=
  { PageState.init pageSize numPages pageTable with prefixCache }

variable (m : CacheManager)

def matchReq (inputIds : List Token) (tic : ℤ) : CacheManager × RadixCacheHandle :=
  let r := m.prefixCache.matchPrefix (inputIds.take (inputIds.length - 1)) tic
  ({ m with prefixCache := r.1 }, r.2)

def availableSize : ℤ := m.prefixCache.sizeInfo.evictable + m.freeSlots.length * m.pageSize

def lock (handle : RadixCacheHandle) : CacheManager :=
  { m with prefixCache := m.prefixCache.lockHandle handle false }

def unlock (handle : RadixCacheHandle) : CacheManager :=
  { m with prefixCache := m.prefixCache.lockHandle handle true }

def free (indices : List Slot) : CacheManager :=
  { m with toPageState := m.toPageState.free indices }

/-- `_allocate`; `none` is a failed assertion. -/
def allocate (H : Heapq timestamp) (neededPages : ℕ) : Option (CacheManager × List Slot) :=
  if m.freeSlots.length < neededPages then
    match m.prefixCache.evict H ((neededPages - m.freeSlots.length) * m.pageSize) with
    | none => none
    | some (prefixCache, evicted) =>
      let freeSlots := m.freeSlots ++ stride m.pageSize evicted
      if neededPages ≤ freeSlots.length then
        some ({ m with prefixCache, freeSlots := freeSlots.drop neededPages },
          freeSlots.take neededPages)
      else none
  else some ({ m with freeSlots := m.freeSlots.drop neededPages }, m.freeSlots.take neededPages)

/-- `allocate_paged`; `none` is a failed assertion. -/
def allocatePaged (H : Heapq timestamp) (reqs : List (Req RadixCacheHandle)) :
    Option CacheManager :=
  let needed := neededPages (allocationInfo m.pageSize reqs)
  if 0 < needed then
    (m.allocate H needed).map fun r =>
      { r.1 with toPageState := r.1.toPageState.writePages r.2 reqs }
  else some m

/-- The manager and the request with its new handle. -/
def cacheReq (req : Req RadixCacheHandle) (finished : Bool) (tic now : ℤ) :
    CacheManager × Req RadixCacheHandle :=
  let pageIndices := m.pageTable.row req.tableIdx 0 req.cachedLen
  let oldHandle := req.cacheHandle
  let insertIds := req.inputIds.take req.cachedLen
  let (prefixCache, cachedLen, newHandle) :=
    m.prefixCache.insertPrefix insertIds pageIndices tic now
  let m := { m with prefixCache }.unlock oldHandle
  let m := m.free ((pageIndices.take cachedLen).drop oldHandle.cachedLen)
  if finished then (m.free (m.paddedTail req newHandle.cachedLen), req)
  else
    let m : CacheManager :=
      if oldHandle.cachedLen < cachedLen then
        let canonical := m.prefixCache.matchedIndices newHandle
        { m with toPageState := m.toPageState.writeRow req.tableIdx oldHandle.cachedLen
                   ((canonical.take cachedLen).drop oldHandle.cachedLen) }
      else m
    (m.lock newHandle, { req with cacheHandle := newHandle })

end CacheManager

/-! ### Admission -/

def kvReservationSize (pageSize totalLen cachedLen : ℕ) : ℕ :=
  (divCeil totalLen pageSize - divCeil cachedLen pageSize) * pageSize

namespace CacheManager

/-- The manager, the table rows, and the handle and the row of the request
if it is admitted. -/
def tryAllocateOne (m : CacheManager) (tables : TableManager) (reservedSize : ℕ)
    (req : PendingReq RadixCacheHandle) (tic : ℤ) :
    CacheManager × TableManager × Option (RadixCacheHandle × ℕ) :=
  match tables.allocate with
  | none => (m, tables, none)
  | some (tables', tableIdx) =>
    let (m, handle) := m.matchReq req.inputIds tic
    let estimatedSize :=
      kvReservationSize m.pageSize (req.inputLen + req.outputLen) handle.cachedLen
    if m.availableSize < estimatedSize + reservedSize then (m, tables, none)
    else
      let m := m.lock handle
      if m.availableSize < estimatedSize + reservedSize then (m.unlock handle, tables, none)
      else
        let matched := m.prefixCache.matchedIndices handle
        ({ m with toPageState :=
            m.toPageState.writeRow tableIdx (handle.cachedLen - matched.length) matched },
          tables', some (handle, tableIdx))

end CacheManager

/-- The request of the chunk `[cachedLen, cachedLen + chunkSize)` of a prompt, as `_add_one_req`
builds it; `none` is a failed assertion. -/
def PendingReq.chunk {η : Type} (p : PendingReq η) (cacheHandle : η)
    (tableIdx cachedLen chunkSize : ℕ) : Option (Req η) :=
  Req.create (p.inputIds.take (cachedLen + chunkSize)) tableIdx cachedLen p.outputLen p.uid
    cacheHandle (chunkSize < p.inputLen - cachedLen)

end FreeToken
