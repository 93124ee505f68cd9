import FreeToken.KvCache.RadixTreeNode

/-!
# Requests

A request as the scheduler sees it.  The handle of its cached prefix is of the type `η` of the
cache in use.
-/

namespace FreeToken

/-- One multimodal input of a request.  `offsets` are its half-open spans of tokens. -/
structure MMItem where
  hash : ℕ
  offsets : List (ℕ × ℕ)
deriving DecidableEq, Repr

def MMItem.numTokens (item : MMItem) : ℕ :=
  item.offsets.foldr (fun (start, stop) n => (stop - start) + n) 0

class BaseCacheHandle (η : Type) where
  cachedLen : η → ℕ
  node : η → Path

structure Req (η : Type) where
  inputIds : List Token
  tableIdx : ℕ
  cachedLen : ℕ
  outputLen : ℕ
  uid : ℕ
  cacheHandle : η
  deviceLen : ℕ
  maxDeviceLen : ℕ
  /-- Whether the request is a `ChunkedReq`: a chunk of a prompt that is never sampled. -/
  chunked : Bool := false
  linearSlotIdx : Option ℕ := none
  mambaPingPong : Option (ℕ × ℕ) := none
  mambaNextTrackIdx : ℕ := 0
  mambaLastTrackSeqlen : Option ℕ := none
  mambaRestoreSrc : Option ℕ := none
  swaEvictedSeqlen : ℕ := 0
  decodeBatchIdx : ℕ := 0
  toolcallAnchorLen : Option ℕ := none
  mmItems : List MMItem := []
  aborted : Bool := false
deriving DecidableEq, Repr

namespace Req

variable {η : Type}

/-- The constructor; `none` is the failed assertion of `__post_init__`. -/
def create (inputIds : List Token) (tableIdx cachedLen outputLen uid : ℕ) (cacheHandle : η)
    (chunked : Bool) : Option (Req η) :=
  if cachedLen < inputIds.length then
    some { inputIds, tableIdx, cachedLen, outputLen, uid, cacheHandle, chunked
           deviceLen := inputIds.length
           maxDeviceLen := inputIds.length + outputLen }
  else none

/-- What the constructor builds. -/
theorem create_spec {inputIds : List Token} {tableIdx cachedLen outputLen uid : ℕ}
    {cacheHandle : η} {chunked : Bool} {r : Req η}
    (h : create inputIds tableIdx cachedLen outputLen uid cacheHandle chunked = some r) :
    cachedLen < inputIds.length ∧
      r = { inputIds, tableIdx, cachedLen, outputLen, uid, cacheHandle, chunked
            deviceLen := inputIds.length
            maxDeviceLen := inputIds.length + outputLen } := by
  unfold create at h
  split at h
  · next hlt => exact ⟨hlt, (Option.some.inj h).symm⟩
  · simp at h

variable (r : Req η)

def remainLen : ℕ := r.maxDeviceLen - r.deviceLen

def extendLen : ℕ := r.deviceLen - r.cachedLen

def completeOne : Req η := { r with cachedLen := r.deviceLen, deviceLen := r.deviceLen + 1 }

/-- `append_host`; `none` is a failed assertion, or the error that a `ChunkedReq` raises. -/
def appendHost (nextToken : Token) : Option (Req η) :=
  if r.chunked then none
  else if r.inputIds.length + 1 ≤ r.maxDeviceLen then
    some { r with inputIds := r.inputIds ++ [nextToken] }
  else none

/-- What `append_host` does to a request that it accepts. -/
theorem appendHost_spec {r r' : Req η} {nextToken : Token} (h : r.appendHost nextToken = some r') :
    r' = { r with inputIds := r.inputIds ++ [nextToken] } := by
  unfold appendHost at h
  split at h
  · simp at h
  · split at h
    · exact (Option.some.inj h).symm
    · simp at h

def canDecode : Bool := !r.chunked && 0 < r.remainLen

end Req

/-- A request that waits for its prefill, or for the rest of it. -/
structure PendingReq (η : Type) where
  uid : ℕ
  inputIds : List Token
  outputLen : ℕ
  chunkedReq : Option (Req η) := none
  mmItems : List MMItem := []
deriving DecidableEq, Repr

def PendingReq.inputLen {η : Type} (p : PendingReq η) : ℕ := p.inputIds.length

end FreeToken
