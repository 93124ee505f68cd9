import FreeToken.Models.Qwen4Exp.Ple

/-!
# The n-gram context while requests run

Requests are admitted, prefilled in chunks and decoded, and the tokens that a forward samples are
processed after the next forward may have been launched.  A finished request may leave its slots to
the prefix cache, and a request that hits a snapshot starts from a copy of it.  Device work is in
the order in which it is launched.
-/

namespace FreeToken

namespace Ple

/-- A request at work: what the host has of it, its row of the token pool, and its slots. -/
structure PleReq where
  prompt : List (BitVec 32)
  inputIds : List (BitVec 32)
  tokenPool : ℕ → BitVec 32
  cachedLen : ℕ
  deviceLen : ℕ
  maxDeviceLen : ℕ
  linearSlot : ℕ
  pingPong : Option (ℕ × ℕ)
  /-- The slot of the pair that is written next is the second one. -/
  nextTrack : Bool
  lastTrack : Option ℕ
  restoreSrc : Option ℕ
  aborted : Bool

/-- A row of the token pool with tokens from a position on. -/
def writeRow (row : ℕ → BitVec 32) (start : ℕ) (toks : List (BitVec 32)) : ℕ → BitVec 32 :=
  fun i => if start ≤ i ∧ i < start + toks.length then toks.getD (i - start) 0 else row i

namespace PleReq

variable (r : PleReq)

def slots : List ℕ := r.linearSlot :: r.pingPong.elim [] fun pair => [pair.1, pair.2]

def trackSlot (second : Bool) : Option ℕ :=
  r.pingPong.map fun pair => if second then pair.2 else pair.1

def batchReq : BatchReq :=
  ⟨r.linearSlot, r.cachedLen, (List.range' r.cachedLen (r.deviceLen - r.cachedLen)).map r.tokenPool⟩

def chunk (n : ℕ) : PleReq :=
  { r with
    inputIds := r.prompt.take (r.cachedLen + n)
    tokenPool :=
      writeRow r.tokenPool r.cachedLen ((r.prompt.take (r.cachedLen + n)).drop r.cachedLen)
    deviceLen := r.cachedLen + n
    lastTrack := none }

/-- The chunks of the scan in front of the deepest boundary inside the forward. -/
def trackChunks : ℕ := (r.deviceLen - r.cachedLen - 1) / chunkSize

/-- `_build_track_metadata`: the row of the boundary and the slot of the snapshot. -/
def trackRow (off : ℕ) : Option (ℕ × ℕ) :=
  if r.trackChunks < 1 then none
  else (r.trackSlot r.nextTrack).map fun dst => (off + r.trackChunks * chunkSize, dst)

/-- `_build_track_metadata`, for the request. -/
def track : PleReq :=
  if r.trackChunks < 1 ∨ r.pingPong = none then r
  else { r with lastTrack := some (r.cachedLen + r.trackChunks * chunkSize), nextTrack :=
    !r.nextTrack }

/-- `snapshot_toolcall_anchor`, for the request. -/
def freeze : PleReq := { r with lastTrack := some r.cachedLen, nextTrack := !r.nextTrack }

/-- A sampled token is written behind the others. -/
def writeToken (token : BitVec 32) : PleReq :=
  if r.deviceLen < r.maxDeviceLen then { r with tokenPool := writeRow r.tokenPool r.deviceLen [token] } else r

def completeOne : PleReq := { r with cachedLen := r.deviceLen, deviceLen := r.deviceLen + 1 }

def appendHost (token : BitVec 32) : PleReq := { r with inputIds := r.inputIds ++ [token] }

/-- What a request that ends leaves to the prefix cache. -/
def donations (keepFrozen keepLive : Bool) : List (ℕ × List (BitVec 32)) :=
  (if keepFrozen then
    (r.lastTrack.bind fun len =>
      if 0 < len ∧ len ≤ r.cachedLen then (r.trackSlot !r.nextTrack).map fun slot =>
      (slot, r.inputIds.take len) else none).toList
   else []) ++
  if keepLive ∧ 0 < r.cachedLen then [(r.linearSlot, r.inputIds.take r.cachedLen)] else []

end PleReq

/-- A request of a prefill batch, with the length of its chunk and the token that is sampled for it.
-/
structure PrefillEntry where
  uid : ℕ
  req : PleReq
  len : ℕ
  token : BitVec 32

namespace PrefillEntry

variable (x : PrefillEntry)

def started : PleReq := x.req.chunk x.len

def isLast : Bool := x.req.cachedLen + x.len == x.req.prompt.length

def done : PleReq :=
  let r := { x.started.track with restoreSrc := none }
  if x.isLast then (r.writeToken x.token).completeOne else r.completeOne

def sampled : ℕ × Option (BitVec 32) := (x.uid, if x.isLast then some x.token else none)

end PrefillEntry

/-- A request of a decode batch, with the token that is sampled for it, and whether it is frozen at
its anchor. -/
structure DecodeEntry where
  uid : ℕ
  req : PleReq
  token : BitVec 32
  anchor : Bool

def DecodeEntry.done (x : DecodeEntry) : PleReq :=
  ((if x.anchor then x.req.freeze else x.req).writeToken x.token).completeOne

/-- Requests by their uids, the snapshots of the prefix cache, the contexts of all slots, and the
forwards that are not processed. -/
structure PleWorld where
  reqs : ℕ → Option PleReq
  snapshots : List (ℕ × List (BitVec 32))
  contextPool : ContextPool
  pending : List (List (ℕ × Option (BitVec 32)))

/-- `copy_from`, for some slots. -/
def copySlots (pool : ContextPool) (pairs : List (ℕ × ℕ)) : ContextPool :=
  pairs.foldl (fun pool pair => Function.update pool pair.2 (pool pair.1)) pool

/-- The boundary rows of a batch, and their slots. -/
def trackRows : ℕ → List PrefillEntry → List (ℕ × ℕ)
  | _, [] => []
  | off, x :: batch => (x.started.trackRow off).toList ++ trackRows (off + x.len) batch

namespace PleWorld

variable (w : PleWorld) (e : NGramEmbedding) (d : DiskRowTable)

def Free (padSlot slot : ℕ) : Prop :=
  slot ≠ padSlot ∧ (∀ uid r, w.reqs uid = some r → slot ∉ r.slots) ∧ ∀ x ∈ w.snapshots, slot ≠ x.1

/-- No forward of the request is pending. -/
def Settled (uid : ℕ) : Prop := ∀ batch ∈ w.pending, ∀ x ∈ batch, x.1 ≠ uid

/-! ### Prefill -/

/-- A batch that can be prefilled: at most one forward is pending. -/
structure Prefillable (batch : List PrefillEntry) : Prop where
  pending : w.pending.length ≤ 1
  nodup : (batch.map PrefillEntry.uid).Nodup
  entry : ∀ x ∈ batch, w.reqs x.uid = some x.req ∧ x.req.aborted = false ∧ 0 < x.len ∧
    x.req.cachedLen + x.len ≤ x.req.prompt.length
  token : e.args.imageTokenId.isSome → ∀ x ∈ batch, x.token.toInt < mmPadShift

/-- `_restore_linear_states`. -/
def restored (batch : List PrefillEntry) : ContextPool :=
  copySlots w.contextPool (batch.filterMap fun x => x.req.restoreSrc.map fun src =>
    (src, x.req.linearSlot))

def prefillMeta (batch : List PrefillEntry) : PLEMetadata :=
  buildPleMetadata false (batch.map fun x => x.started.batchReq) e.args (w.restored batch)

/-- The rows that the store reads for a prefill. -/
def prefillRows (batch : List PrefillEntry) : Option (List (List ℤ)) :=
  (batch.mapM fun x => d.prefillRun x.started.inputIds x.started.cachedLen x.started.deviceLen).map
    fun runs =>
    runs.flatMap d.runRows

def prefill (batch : List PrefillEntry) : PleWorld where
  reqs uid := (batch.find? fun x => x.uid == uid).elim (w.reqs uid) fun x => some x.done
  snapshots := w.snapshots
  contextPool := commitNgramContext (w.prefillMeta e batch) (e.args.ngramSize - 1)
    ((trackRows 0 batch).map Prod.fst) ((trackRows 0 batch).map Prod.snd) (w.restored batch)
  pending := w.pending ++ [batch.map PrefillEntry.sampled]

/-! ### Decode -/

/-- A batch that can be decoded, with its padding: at most one forward is pending. -/
structure Decodable (padSlot : ℕ) (batch : List DecodeEntry) (pads : List BatchReq) : Prop where
  pending : w.pending.length ≤ 1
  nodup : (batch.map DecodeEntry.uid).Nodup
  entry : ∀ x ∈ batch, w.reqs x.uid = some x.req ∧ x.req.aborted = false ∧
    x.req.prompt.length ≤ x.req.cachedLen ∧
    x.req.deviceLen < x.req.maxDeviceLen
  anchor : ∀ x ∈ batch, x.anchor = true → x.req.pingPong ≠ none ∧ x.req.lastTrack = none
  token : e.args.imageTokenId.isSome → ∀ x ∈ batch, x.token.toInt < mmPadShift
  pads : ∀ pad ∈ pads, pad.slot = padSlot ∧ pad.inputIds.length = 1

/-- The contexts when the anchors are frozen. -/
def anchored (batch : List DecodeEntry) : ContextPool :=
  copySlots w.contextPool (batch.filterMap fun x =>
    if x.anchor then (x.req.trackSlot x.req.nextTrack).map fun dst => (x.req.linearSlot, dst)
      else none)

def decodeMeta (batch : List DecodeEntry) (pads : List BatchReq) : PLEMetadata :=
  buildPleMetadata true ((batch.map fun x => x.req.batchReq) ++ pads) e.args (w.anchored batch)

/-- The rows that the store reads for a decode: the tokens are read back from the device. -/
def decodeRows (batch : List DecodeEntry) : Option (List (List ℤ)) :=
  (batch.mapM fun x => d.decodeRun x.req.inputIds x.req.deviceLen
    (x.req.tokenPool (x.req.deviceLen - 1))).map fun runs =>
    runs.flatMap d.runRows

def decode (batch : List DecodeEntry) (pads : List BatchReq) : PleWorld where
  reqs uid := (batch.find? fun x => x.uid == uid).elim (w.reqs uid) fun x => some x.done
  snapshots := w.snapshots
  contextPool :=
    commitNgramContext (w.decodeMeta e batch pads) (e.args.ngramSize - 1) [] [] (w.anchored batch)
  pending := w.pending ++ [batch.map fun x => (x.uid, some x.token)]

/-! ### The end of a request -/

/-- `_free_req_resources`. -/
def free (uid : ℕ) (r : PleReq) (keepFrozen keepLive : Bool) : PleWorld :=
  { w with
    reqs := Function.update w.reqs uid none
    snapshots := w.snapshots ++ r.donations keepFrozen keepLive }

end PleWorld

inductive PleStep (e : NGramEmbedding) (padSlot : ℕ) : PleWorld → PleWorld → Prop where
  /-- A request gets its slots; it may hit a snapshot. -/
  | admitted {w : PleWorld} {uid : ℕ} {prompt : List (BitVec 32)} {row : ℕ → BitVec 32}
      {maxDeviceLen linearSlot : ℕ}
      {pingPong : Option (ℕ × ℕ)} {hit : Option (ℕ × List (BitVec 32))} {r : PleReq}
      (hnew : w.reqs uid = none)
      (hsettled : w.Settled uid) (hprompt : prompt ≠ []) (hlen : prompt.length ≤ maxDeviceLen)
      (hhit : ∀ x, hit = some x → x ∈ w.snapshots ∧ x.2 <+: prompt ∧ x.2 ≠ [] ∧
        x.2.length < prompt.length) (hr : r = ⟨prompt, prompt.take (hit.elim 0 fun x => x.2.length),
        writeRow row 0 (prompt.take (hit.elim 0 fun x => x.2.length)), hit.elim 0 fun x =>
          x.2.length,
        hit.elim 0 fun x => x.2.length, maxDeviceLen, linearSlot, pingPong, false, none, hit.map
          Prod.fst, false⟩) (hslots : r.slots.Nodup ∧ ∀ slot ∈ r.slots, w.Free padSlot slot) :
      PleStep e padSlot w { w with reqs := Function.update w.reqs uid (some r) }
  /-- An admission is undone. -/
  | undo {w : PleWorld} {uid : ℕ} {r : PleReq} (hreq : w.reqs uid = some r)
      (hnew : r.deviceLen = r.cachedLen) :
      PleStep e padSlot w { w with reqs := Function.update w.reqs uid none }
  | prefill {w : PleWorld} {batch : List PrefillEntry} (h : w.Prefillable e batch) :
      PleStep e padSlot w (w.prefill e batch)
  | decode {w : PleWorld} {batch : List DecodeEntry} {pads : List BatchReq}
      (h : w.Decodable e padSlot batch pads) :
      PleStep e padSlot w (w.decode e batch pads)
  /-- The request of a pending token is gone. -/
  | gone {w : PleWorld} {x : ℕ × Option (BitVec 32)} {batch : List (ℕ × Option (BitVec 32))}
      {pending : List (List (ℕ × Option (BitVec 32)))}
      (hpending : w.pending = (x :: batch) :: pending)
      (hreq : w.reqs x.1 = none) : PleStep e padSlot w { w with pending := batch :: pending }
  | chunked {w : PleWorld} {uid : ℕ} {r : PleReq} {batch : List (ℕ × Option (BitVec 32))}
      {pending : List (List (ℕ × Option (BitVec 32)))}
      (hpending : w.pending = ((uid, none) :: batch) :: pending)
      (hreq : w.reqs uid = some r) (haborted : r.aborted = false) :
      PleStep e padSlot w { w with pending := batch :: pending }
  | token {w : PleWorld} {uid : ℕ} {r : PleReq} {t : BitVec 32}
      {batch : List (ℕ × Option (BitVec 32))} {pending : List (List (ℕ × Option (BitVec 32)))}
      (hpending : w.pending = ((uid, some t) :: batch) :: pending) (hreq : w.reqs uid = some r)
      (haborted : r.aborted = false) :
      PleStep e padSlot w { w with
        pending := batch :: pending
        reqs := Function.update w.reqs uid (some (r.appendHost t)) }
  | finished {w : PleWorld} {uid : ℕ} {r : PleReq} {t : BitVec 32}
      {batch : List (ℕ × Option (BitVec 32))}
      {pending : List (List (ℕ × Option (BitVec 32)))} {keepFrozen keepLive : Bool}
      (hpending : w.pending = ((uid, some t) :: batch) :: pending) (hreq : w.reqs uid = some r)
      (haborted : r.aborted = false) :
      PleStep e padSlot w
        (({ w with pending := batch :: pending } : PleWorld).free uid (r.appendHost t) keepFrozen
        keepLive)
  /-- An aborted request is freed when its forward is processed. -/
  | abortedFree {w : PleWorld} {x : ℕ × Option (BitVec 32)} {r : PleReq}
      {batch : List (ℕ × Option (BitVec 32))} {pending : List (List (ℕ × Option (BitVec 32)))}
      {keepFrozen keepLive : Bool} (hpending : w.pending = (x :: batch) :: pending)
      (hreq : w.reqs x.1 = some r) (haborted : r.aborted = true) :
      PleStep e padSlot w
        (({ w with pending := batch :: pending } : PleWorld).free x.1 r keepFrozen keepLive)
  | drained {w : PleWorld} {pending : List (List (ℕ × Option (BitVec 32)))}
      (hpending : w.pending = [] :: pending) :
      PleStep e padSlot w { w with pending }
  /-- The snapshot of a prefill goes to the prefix cache, and another slot takes its place. -/
  | donate {w : PleWorld} {uid len frozen slot : ℕ} {r r' : PleReq} (hreq : w.reqs uid = some r)
      (hlast : r.lastTrack = some len) (hfrozen : r.trackSlot (!r.nextTrack) = some frozen)
      (hslot : w.Free padSlot slot)
      (hr : r' = { r with
        lastTrack := none
        pingPong :=
          r.pingPong.map fun pair => if r.nextTrack then (slot, pair.2) else (pair.1, slot) }) :
      PleStep e padSlot w { w with
        reqs := Function.update w.reqs uid (some r')
        snapshots := w.snapshots ++ [(frozen, r.inputIds.take len)] }
  /-- The prefix cache has such a snapshot. -/
  | known {w : PleWorld} {uid : ℕ} {r : PleReq} (hreq : w.reqs uid = some r) :
      PleStep e padSlot w { w with
        reqs := Function.update w.reqs uid (some { r with lastTrack := none }) }
  /-- A request is marked, when at most the last forward is pending. -/
  | abort {w : PleWorld} {uid : ℕ} {r : PleReq} (hpending : w.pending.length ≤ 1)
      (hreq : w.reqs uid = some r) :
      PleStep e padSlot w { w with
        reqs := Function.update w.reqs uid (some { r with aborted := true }) }
  /-- An aborted request without a forward is freed. -/
  | abortedIdle {w : PleWorld} {uid : ℕ} {r : PleReq} {keepFrozen keepLive : Bool}
      (hreq : w.reqs uid = some r) (hsettled : w.Settled uid)
      (hstarted : r.deviceLen ≠ r.cachedLen) :
      PleStep e padSlot w (w.free uid r keepFrozen keepLive)
  /-- A snapshot that no request waits for is evicted. -/
  | evict {w : PleWorld} {before after : List (ℕ × List (BitVec 32))} {x : ℕ × List (BitVec 32)}
      (hsnapshots : w.snapshots = before ++ x :: after)
      (hfree : ∀ uid r, w.reqs uid = some r → r.restoreSrc ≠ some x.1) :
      PleStep e padSlot w { w with snapshots := before ++ after }

/-- A state that is reached from an empty one. -/
inductive PleReached (e : NGramEmbedding) (padSlot : ℕ) : PleWorld → Prop where
  | start {contextPool : ContextPool}
      (hwidth : ∀ slot, (contextPool slot).length = e.args.ngramSize - 1) :
      PleReached e padSlot ⟨fun _ => none, [], contextPool, []⟩
  | step {w w' : PleWorld} (h : PleReached e padSlot w) (hstep : PleStep e padSlot w w') :
      PleReached e padSlot w'

end Ple

end FreeToken
