import FreeToken.Scheduler.Cache
import FreeToken.Scheduler.Mm

/-!
# Prefill scheduling

`PrefillAdder` seats pending requests and cuts their chunks; `PrefillManager` keeps the pending
list.  Both work on any cache manager that answers the questions of `PrefillCache`.  The clock
readings of a pass are an argument, one for each pending request.
-/

namespace FreeToken

/-- What the adder asks of a `CacheManager`, whose handles are of the type `η`.  What is said of
linear-state slots and of the window pool matters only under `isHybrid` and `swaPaged`. -/
class PrefillCache (μ : Type) (η : outParam Type) where
  pageSize : μ → ℕ
  /-- `match_req` of a prompt: the handle and the `mamba_value`. -/
  matchReq : μ → List Token → ℤ → μ × η × Option ℕ
  availableSize : μ → ℤ
  lock : μ → η → μ × η
  unlock : μ → η → μ
  isHybrid : μ → Bool
  numFreeSlots : μ → ℕ
  ensureMambaSlots : μ → ℕ → μ
  /-- `linear_state_pool.alloc`. -/
  allocSlots : μ → ℕ → μ × List ℕ
  /-- `linear_state_pool.free`. -/
  freeStateSlots : μ → List ℕ → μ
  swaPaged : μ → Bool
  slidingWindowSize : μ → ℕ
  swaAvailableSize : μ → ℤ
  prefillChunkAlign : μ → ℕ
  /-- Write the matched indices of a handle to the tail of its part of a row. -/
  writeMatched : μ → ℕ → η → μ

open PrefillCache

structure PrefillAdder (μ α : Type) where
  tokenBudget : ℕ
  reservedSize : ℕ
  cacheManager : μ
  tableManager : TableManager
  encoderCache : Option (EncoderCache α)
  keepImagesWhole : Bool
  passBudget : ℕ
  reservedSwa : ℕ := 0

/-- What a request has when a chunk of it is added: the arguments of `_add_one_req`. -/
structure Carried (η : Type) where
  cacheHandle : η
  tableIdx : ℕ
  cachedLen : ℕ
  linearSlotIdx : Option ℕ := none
  pingPong : Option (ℕ × ℕ) := none
  nextTrackIdx : ℕ := 0
  restoreSrc : Option ℕ := none
  swaEvictedSeqlen : ℕ := 0
deriving DecidableEq, Repr

/-- What the last chunk of a request hands to the next one, which has a live state already. -/
def Carried.ofChunk {η : Type} (r : Req η) : Carried η where
  cacheHandle := r.cacheHandle
  tableIdx := r.tableIdx
  cachedLen := r.cachedLen
  linearSlotIdx := r.linearSlotIdx
  pingPong := r.mambaPingPong
  nextTrackIdx := r.mambaNextTrackIdx
  swaEvictedSeqlen := r.swaEvictedSeqlen

/-- The chunk size aligned for snapshots; an unaligned one stays if no whole unit fits. -/
def alignChunk (align cachedLen remainLen chunkSize : ℕ) : ℕ :=
  if 1 < align ∧ 0 < chunkSize ∧ chunkSize < remainLen then
    let aligned := alignDown (cachedLen + chunkSize) align - cachedLen
    if 0 < aligned then aligned else chunkSize
  else chunkSize

namespace PrefillAdder

variable {μ η α : Type} [BaseCacheHandle η] [PrefillCache μ η] (a : PrefillAdder μ α)

/-! ### Admission -/

/-- The second currency: three linear-state slots, made free by evicting snapshots if need be. -/
def seatState (m : μ) : μ × Bool :=
  if isHybrid m then
    let m := if numFreeSlots m < 3 then ensureMambaSlots m 3 else m
    (m, 3 ≤ numFreeSlots m)
  else (m, true)

/-- The third currency: the window pages of the first chunk, or of one window. -/
def seatSwa (m : μ) (extendLen : ℕ) : Bool :=
  if swaPaged m then
    let ps := pageSize m
    let needSwa := divCeil (min (max extendLen 1) (slidingWindowSize m) + 1) ps * ps
    needSwa ≤ swaAvailableSize m - a.reservedSwa
  else true

/-- The linear-state slots of a request: the live one and the two ping-pong ones. -/
def takeSlots (m : μ) : μ × Option ℕ × Option (ℕ × ℕ) :=
  if isHybrid m then
    let (m, live) := allocSlots m 1
    let (m, pingPong) := allocSlots m 2
    (m, live.head?, (pingPong.head?).bind fun x => (pingPong.tail.head?).map fun y => (x, y))
  else (m, none, none)

/-- Lock the handle of a request if it fits in all currencies.  The lock may take pages that were
evictable, so the first check is made again behind it. -/
def lockIfFits (m : μ) (handle : η) (estimatedSize extendLen : ℕ) : μ × Option η :=
  let (m, handle) := lock m handle
  if availableSize m < estimatedSize + a.reservedSize then (unlock m handle, none)
  else
    let (m, seated) := seatState m
    if seated && a.seatSwa m extendLen then (m, some handle) else (unlock m handle, none)

/-- Give an admitted request its row, with the matched indices, and its linear-state slots. -/
def seat (m : μ) (tables : TableManager) (tableIdx : ℕ) (handle : η) (mambaValue : Option ℕ) :
    PrefillAdder μ α × Carried η :=
  let cachedLen := BaseCacheHandle.cachedLen handle
  let m := if 0 < cachedLen then writeMatched m tableIdx handle else m
  let (m, live, pingPong) := takeSlots m
  ({ a with cacheManager := m, tableManager := tables },
    { cacheHandle := handle, tableIdx, cachedLen, linearSlotIdx := live, pingPong,
      restoreSrc := mambaValue })

/-- The adder, and what the request has if it is admitted; `none` is the failed
assertion of `match_req`. -/
def tryAllocateOne (req : PendingReq η) (tic : ℤ) :
    Option (PrefillAdder μ α × Option (Carried η)) :=
  match a.tableManager.allocate with
  | none => some (a, none)
  | some (tables, tableIdx) =>
    if req.inputLen = 0 then none
    else
      let (m, handle, mambaValue) := matchReq a.cacheManager req.inputIds tic
      let cachedLen := BaseCacheHandle.cachedLen handle
      let estimatedSize := kvReservationSize (pageSize m) (req.inputLen + req.outputLen) cachedLen
      if availableSize m < estimatedSize + a.reservedSize then some
        ({ a with cacheManager := m }, none)
      else
        match a.lockIfFits m handle estimatedSize (req.inputLen - cachedLen) with
        | (m, none) => some ({ a with cacheManager := m }, none)
        | (m, some handle) =>
          let (a, k) := a.seat m tables tableIdx handle mambaValue
          some (a, some k)

/-! ### Chunks -/

/-- The window tokens that the free of this request's own extend will return before the allocation.
`floor` is the cached prefix of the request, whose window is not its own. -/
def selfReclaim (floor cachedLen swaEvictedSeqlen : ℕ) : ℕ :=
  let ps := pageSize a.cacheManager
  alignDown (cachedLen - slidingWindowSize a.cacheManager - ps) ps - max swaEvictedSeqlen floor

/-- The end of the last chunk whose pages the window pool can back. -/
def swaMaxEnd (floor cachedLen swaEvictedSeqlen : ℕ) : ℕ :=
  let ps := pageSize a.cacheManager
  let swaBudget :=
    swaAvailableSize a.cacheManager + a.selfReclaim floor cachedLen swaEvictedSeqlen - a.reservedSwa
  (divCeil cachedLen ps + swaBudget.toNat / ps) * ps

/-- The chunk size capped by the window pool, with the end of a chunk that mints a continuation
aligned to a page; `none` is a retry in the next pass. -/
def swaChunk (floor cachedLen swaEvictedSeqlen remainLen chunkSize : ℕ) : Option ℕ :=
  if swaPaged a.cacheManager then
    let chunkSize := min chunkSize (a.swaMaxEnd floor cachedLen swaEvictedSeqlen - cachedLen)
    if 0 < chunkSize ∧ chunkSize < remainLen then
      let aligned := alignDown (cachedLen + chunkSize) (pageSize a.cacheManager) - cachedLen
      if 0 < aligned then some aligned else none
    else some chunkSize
  else some chunkSize

/-- The alignment of a chunk that ends before an image. -/
def imageUnit : ℕ :=
  let align := prefillChunkAlign a.cacheManager
  Nat.lcm (if swaPaged a.cacheManager then pageSize a.cacheManager else 1)
    (if 1 < align then align else 1)

/-- The size of a chunk that ends before an image it would cut; `none` is a retry in the next pass.
-/
def imageChunk (req : PendingReq η) (cachedLen remainLen chunkSize : ℕ) : Option ℕ :=
  if a.keepImagesWhole ∧ req.mmItems ≠ [] ∧ chunkSize < remainLen then
    let end_ := mmChunkEnd req.mmItems cachedLen (cachedLen + chunkSize) a.imageUnit
    match (req.mmItems.flatMap MMItem.offsets).find? fun (lo, hi) => lo < end_ && end_ < hi with
    | some (_, cut) =>
      -- other requests took part of this pass; a pass of its own holds the image whole
      if a.tokenBudget < a.passBudget ∧ cut - cachedLen ≤ a.passBudget then none
      else some (end_ - cachedLen)
    | none => some (end_ - cachedLen)
  else some chunkSize

/-- The size of the next chunk of a request; `none` is a retry in the next pass. -/
def chunkSize (req : PendingReq η) (k : Carried η) : Option ℕ :=
  let remainLen := req.inputLen - k.cachedLen
  (a.swaChunk (BaseCacheHandle.cachedLen k.cacheHandle) k.cachedLen k.swaEvictedSeqlen remainLen
    (min a.tokenBudget remainLen)).bind fun chunkSize =>
      a.imageChunk req k.cachedLen remainLen
        (alignChunk (prefillChunkAlign a.cacheManager) k.cachedLen remainLen chunkSize)

/-- What a chunk costs the rest of the pass. -/
def charge (req : PendingReq η) (cachedLen chunkSize : ℕ) : PrefillAdder μ α :=
  let ps := pageSize a.cacheManager
  { a with
    tokenBudget := a.tokenBudget - chunkSize
    reservedSize := a.reservedSize + kvReservationSize ps (req.inputLen + req.outputLen) cachedLen
    reservedSwa :=
      if swaPaged a.cacheManager then
        a.reservedSwa + (divCeil (cachedLen + chunkSize) ps - divCeil cachedLen ps) * ps
      else a.reservedSwa }

/-- `_add_one_req`; `none` is a failed assertion. -/
def addOneReq (req : PendingReq η) (k : Carried η) : Option (PrefillAdder μ α × Option (Req η)) :=
  match a.chunkSize req k with
  | none => some (a, none)
  | some chunkSize =>
    (req.chunk k.cacheHandle k.tableIdx k.cachedLen chunkSize).map fun r =>
      (a.charge req k.cachedLen chunkSize,
        some { r with
          mmItems := req.mmItems
          linearSlotIdx := k.linearSlotIdx
          mambaPingPong := k.pingPong
          mambaNextTrackIdx := k.nextTrackIdx
          mambaRestoreSrc := k.restoreSrc
          swaEvictedSeqlen := k.swaEvictedSeqlen })

def undo (k : Carried η) : PrefillAdder μ α :=
  let m := unlock a.cacheManager k.cacheHandle
  { a with
    tableManager := a.tableManager.free k.tableIdx
    cacheManager :=
      match k.linearSlotIdx with
      | none => m
      | some live => freeStateSlots m (live :: (k.pingPong.toList.flatMap fun (x, y) => [x, y])) }

/-- `try_add_one`; `none` is a failed assertion. -/
def tryAddOne (req : PendingReq η) (tic : ℤ) : Option (PrefillAdder μ α × Option (Req η)) :=
  if a.tokenBudget = 0 then some (a, none)
  else
    match req.chunkedReq with
    | some chunkedReq => a.addOneReq req (.ofChunk chunkedReq)
    | none =>
      match a.tryAllocateOne req tic with
      | none => none
      | some (a, none) => some (a, none)
      | some (a, some k) =>
        (a.addOneReq req k).map fun (a, r) =>
          match r with
          | none => (a.undo k, none)
          | some r => (a, some r)

/-! ### The pass -/

/-- Claim the embedding rows that the chunks of an admitted request will gather. -/
def claim (req : PendingReq η) (r : Req η) : PrefillAdder μ α :=
  { a with encoderCache := a.encoderCache.map fun c =>
      claimRows c r.uid req.mmItems (BaseCacheHandle.cachedLen r.cacheHandle) }

end PrefillAdder

/-- What the loop of `schedule_next_batch` collects. -/
structure PrefillPass (μ η α : Type) where
  adder : PrefillAdder μ α
  reqs : List (Req η) := []
  chunkedList : List (PendingReq η) := []
  promptAdmissions : List (ℕ × ℕ × ℕ) := []

/-- One more added request, the first one. -/
def PrefillPass.cons {μ η α : Type} [BaseCacheHandle η] (s : PrefillPass μ η α) (req : PendingReq η)
    (r : Req η) : PrefillPass μ η α :=
  { s with
    reqs := r :: s.reqs
    chunkedList :=
      if r.chunked then { req with chunkedReq := some r } :: s.chunkedList else s.chunkedList
    promptAdmissions :=
      if req.chunkedReq.isNone then
        (r.uid, req.inputLen, BaseCacheHandle.cachedLen r.cacheHandle) :: s.promptAdmissions
      else s.promptAdmissions }

/-- The loop of `schedule_next_batch`; `none` is a failed assertion. -/
def addLoop {μ η α : Type} [BaseCacheHandle η] [PrefillCache μ η] :
    PrefillAdder μ α → (ℕ → ℤ) → List (PendingReq η) → Option (PrefillPass μ η α)
  | a, _, [] => some { adder := a }
  | a, tic, req :: pendingList =>
    match a.tryAddOne req (tic 0) with
    | none => none
    | some (a, none) => some { adder := a } -- no more requests can be added
    | some (a, some r) =>
      let a := if req.chunkedReq.isNone then a.claim req r else a
      (addLoop a (fun i => tic (i + 1)) pendingList).map fun s => s.cons req r

structure PrefillManager (μ η α : Type) where
  cacheManager : μ
  tableManager : TableManager
  encoderCache : Option (EncoderCache α) := none
  keepImagesWhole : Bool := false
  pendingList : List (PendingReq η) := []

structure PrefillBatch (η : Type) where
  reqs : List (Req η)
  promptAdmissions : List (ℕ × ℕ × ℕ)
deriving DecidableEq, Repr

namespace PrefillManager

variable {μ η α : Type} (pm : PrefillManager μ η α)

def addOneReq (req : PendingReq η) : PrefillManager μ η α :=
  { pm with pendingList := pm.pendingList ++ [req] }

def adder (inflightTokens prefillBudget : ℕ) : PrefillAdder μ α where
  tokenBudget := prefillBudget
  reservedSize := inflightTokens
  cacheManager := pm.cacheManager
  tableManager := pm.tableManager
  encoderCache := pm.encoderCache
  keepImagesWhole := pm.keepImagesWhole
  passBudget := prefillBudget

/-- The manager, and the batch if there is one; `none` is a failed
assertion. -/
def scheduleNextBatch [BaseCacheHandle η] [PrefillCache μ η] (inflightTokens prefillBudget : ℕ)
    (tic : ℕ → ℤ) : Option (PrefillManager μ η α × Option (PrefillBatch η)) :=
  (addLoop (pm.adder inflightTokens prefillBudget) tic pm.pendingList).map fun s =>
    let pm := { pm with
      cacheManager := s.adder.cacheManager
      tableManager := s.adder.tableManager
      encoderCache := s.adder.encoderCache }
    if s.reqs = [] then (pm, none)
    else
      ({ pm with pendingList := s.chunkedList ++ pm.pendingList.drop s.reqs.length },
        some ⟨s.reqs, s.promptAdmissions⟩)

/-- The chunk of the request that is taken out, if it has one. -/
def abortReq (uid : ℕ) : PrefillManager μ η α × Option (Req η) :=
  ({ pm with pendingList := pm.pendingList.eraseP fun req => req.uid == uid },
    (pm.pendingList.find? fun req => req.uid == uid).bind PendingReq.chunkedReq)

/-- `complete_one` of the chunks of a batch, which are those of the first `n` pending requests. -/
def completeChunks (n : ℕ) : PrefillManager μ η α :=
  { pm with pendingList :=
      (pm.pendingList.take n).map (fun req =>
        { req with chunkedReq := req.chunkedReq.map Req.completeOne }) ++ pm.pendingList.drop n }

end PrefillManager

/-! ### The plain manager -/

instance : PrefillCache CacheManager RadixCacheHandle where
  pageSize m := m.pageSize
  matchReq m ids tic := let r := m.matchReq ids tic; (r.1, r.2, none)
  availableSize := CacheManager.availableSize
  lock m handle := (m.lock handle, handle)
  unlock := CacheManager.unlock
  isHybrid _ := false
  numFreeSlots _ := 0
  ensureMambaSlots m _ := m
  allocSlots m _ := (m, [])
  freeStateSlots m _ := m
  swaPaged _ := false
  slidingWindowSize _ := 0
  swaAvailableSize _ := 0
  prefillChunkAlign _ := 1
  writeMatched m idx handle :=
    let matched := m.prefixCache.matchedIndices handle
    { m with toPageState := m.toPageState.writeRow idx (handle.cachedLen - matched.length) matched }

end FreeToken
