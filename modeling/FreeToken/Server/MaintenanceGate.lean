import FreeToken.Server.Generation
import Mathlib.Data.Finset.Sort

/-!
# The maintenance gate

Whether the server admits requests is one word, `maintenance_state`.  The event loop writes it, and
so does the thread that supervises the backend.

A handler of the event loop runs from one `await` to the next without another handler in between,
but the supervisor can take a step after each access of the handler to the state that both share.
`Server.step` therefore has one event for each such access.
-/

namespace FreeToken

namespace MaintenanceGate

/-- `maintenance_state`. -/
inductive Maintenance where
  | loading
  | serving
  | rebuilding
  | stopping
  | failed
deriving DecidableEq, Repr

/-! ### `StatsTracker` -/

/-- The counters of `StatsTracker` that the accounting reads. -/
structure StatsTracker where
  inflight : Finset ℕ := ∅
  aborting : Finset ℕ := ∅
  completed : ℕ := 0
  promptTokensTotal : ℕ := 0
  completionTokensTotal : ℕ := 0
deriving DecidableEq

namespace StatsTracker

def active (stats : StatsTracker) : ℕ := stats.inflight.card

def inflightUids (stats : StatsTracker) : List ℕ := stats.inflight.sort (· ≤ ·)

def onNewUser (stats : StatsTracker) (uid : ℕ) : StatsTracker :=
  { stats with inflight := insert uid stats.inflight, aborting := stats.aborting.erase uid }

def onAbort (stats : StatsTracker) (uid : ℕ) : StatsTracker :=
  if uid ∈ stats.inflight then { stats with aborting := insert uid stats.aborting } else stats

/-- The last part of `observe`: the request has ended. -/
def onFinished (stats : StatsTracker) (uid : ℕ) : StatsTracker :=
  if uid ∈ stats.inflight then
    { stats with
      inflight := stats.inflight.erase uid
      aborting := stats.aborting.erase uid
      completed := if uid ∈ stats.aborting then stats.completed else stats.completed + 1 }
  else stats

def observe (stats : StatsTracker) (uid : ℕ) (reply : UserReply) : StatsTracker :=
  let stats := { stats with
    completionTokensTotal := stats.completionTokensTotal + reply.completionTokensDelta
    promptTokensTotal := stats.promptTokensTotal + reply.promptTokensDelta }
  if reply.finished then stats.onFinished uid else stats

end StatsTracker

/-! ### Messages -/

/-- `CacheRebuildMsg`, always with the mode `if_idle`. -/
structure CacheRebuildMsg where
  requestId : Text
  moeCacheSize : Option ℕ
  numPages : Option ℕ
  numMambaSlots : Option ℕ
  numSwaPages : Option ℕ
deriving DecidableEq

inductive RebuildStatus where
  | ok
  | busy
  | rejected
  | unsupported
  | failed
deriving DecidableEq

structure CacheRebuildReply where
  requestId : Text
  status : RebuildStatus
  moeCacheSize : ℕ := 0
  numPages : ℕ := 0
  mambaSlots : ℕ := 0
  numSwaPages : ℕ := 0
  error : Option Text := none
deriving DecidableEq

/-- What the future of a rebuild is set to: the reply, or the message of a failure of the backend.
-/
inductive RebuildResult where
  | reply (msg : CacheRebuildReply)
  | died (message : Text)
deriving DecidableEq

/-- What `prepare_stop_accounting` seals. -/
structure SealedAccounting where
  instanceId : Text
  modelId : Option Text
  promptTokensTotal : ℕ
  completionTokensTotal : ℕ
  uptimeS : ℤ
deriving DecidableEq

/-! ### `FrontendManager` -/

/-- The fields of `FrontendManager` that the gate and the accounting have to do with. -/
structure FrontendManager where
  instanceId : Text := []
  servedModelName : Option Text := none
  uidCounter : ℕ := 0
  ackMap : List (ℕ × List UserReply) := []
  maintenanceState : Maintenance := .loading
  fatalError : Option Text := none
  stats : StatsTracker := {}
  rebuildFutures : List Text := []
  lastRebuild : Option CacheRebuildReply := none
  readyAt : Option ℤ := none
  sealedAccounting : Option SealedAccounting := none
deriving DecidableEq

namespace FrontendManager

/-- `new_user`; `none` is an `AdmissionClosedError`. -/
def newUser (m : FrontendManager) : Option FrontendManager :=
  if m.maintenanceState ≠ .serving then none
  else some { m with
    uidCounter := m.uidCounter + 1
    ackMap := (m.uidCounter, []) :: m.ackMap
    stats := m.stats.onNewUser m.uidCounter }

/-- A `UserReply` in `listen`. -/
def onReply (m : FrontendManager) (uid : ℕ) (msg : UserReply) : FrontendManager :=
  { m with
    stats := m.stats.observe uid msg
    ackMap :=
      m.ackMap.map fun entry => if entry.1 = uid then (entry.1, entry.2 ++ [msg]) else entry }

/-- `abort_user`, up to the message that it sends. -/
def abortUser (m : FrontendManager) (uid : ℕ) : FrontendManager :=
  { m with
    ackMap := m.ackMap.filter fun entry => entry.1 ≠ uid
    stats := m.stats.onAbort uid }

/-- The snapshot at the end of `prepare_stop_accounting`. -/
def sealTotals (m : FrontendManager) (now : ℤ) : FrontendManager :=
  { m with
    sealedAccounting := some
      { instanceId := m.instanceId
        modelId := m.servedModelName
        promptTokensTotal := m.stats.promptTokensTotal
        completionTokensTotal := m.stats.completionTokensTotal
        uptimeS := m.readyAt.elim 0 fun readyAt => max 0 (now - readyAt) } }

end FrontendManager

/-! ### The server -/

/-- Where the event loop is: between two handlers, or within one. -/
inductive LoopPC where
  | idle
  /-- `cache_rebuild` has still to compare the state with these, and then dispatches. -/
  | rebuildChecks (msg : CacheRebuildMsg) (left : List Maintenance)
  /-- `_resolve_rebuild` is about to write `serving`, or else `failed`. -/
  | resolving (serving : Bool)
  /-- `prepare_stop_accounting` has read this. -/
  | preparing (found : Maintenance)
deriving DecidableEq

inductive SupervisorPC where
  /-- The workers load. -/
  | draining
  /-- `_on_ready` has found the state at `loading`. -/
  | ready
  /-- `_on_ready` has written the state. -/
  | stamping
  | watching
  /-- `_on_failure` has latched the error. -/
  | latching (message : Text)
  | exited
deriving DecidableEq

/-- Where the holder of the accounting lock is, after it has closed the gate. -/
inductive PreparePhase where
  | draining
  /-- The aborts of these requests are still to be sent. -/
  | aborting (uids : List ℕ)
  | barrier
deriving DecidableEq

/-- The state of the API server's process, with the rebuilds that are under way. -/
structure Server where
  manager : FrontendManager := {}
  loop : LoopPC := .idle
  supervisor : SupervisorPC := .draining
  prepare : Option PreparePhase := none
  /-- `dispatch_rebuild` at `await state.send_one`. -/
  sending : List CacheRebuildMsg := []
  /-- `dispatch_rebuild` at `await asyncio.wait_for`. -/
  waiting : List Text := []
  /-- The futures that are done and have not been looked at. -/
  results : List (Text × RebuildResult) := []
  /-- The failures that `fail_pending_rebuilds` has put to the event loop. -/
  callbacks : List Text := []
  /-- The requests that the scheduler has received and not answered. -/
  backend : List CacheRebuildMsg := []
deriving DecidableEq

inductive Event where
  | newUser
  | userReply (uid : ℕ) (msg : UserReply)
  | abortUser (uid : ℕ)
  -- `cache_rebuild` and `dispatch_rebuild`
  | cacheRebuild (msg : CacheRebuildMsg)
  | rebuildCheck
  | dispatch
  | sendOk (msg : CacheRebuildMsg)
  | sendError (msg : CacheRebuildMsg)
  | rebuildTimeout (requestId : Text)
  | rebuildReturns (requestId : Text)
  -- `_resolve_rebuild`
  | rebuildReply (msg : CacheRebuildMsg) (reply : CacheRebuildReply)
  | resolve
  | resolveAll
  -- `prepare_stop_accounting`
  | prepareStop
  | closeGate
  | drainTimeout
  | abortInflight (uid : ℕ)
  | abortFailed
  | abortsSent
  | barrierTimeout
  | sealTotals (now : ℤ)
  -- the supervisor
  | onReady
  | openGate
  | stampReady (now : ℤ)
  | onFailure (message : Text)
  | latchFailed
  | shuttingDown

namespace Server

def setMaintenance (s : Server) (next : Maintenance) : Server :=
  { s with manager := { s.manager with maintenanceState := next } }

/-- The states that `cache_rebuild` refuses, in its order. -/
def refusals : List Maintenance := [.loading, .failed, .rebuilding, .stopping]

/-- One comparison of `cache_rebuild`. -/
def rebuildCheck (s : Server) : Option Server :=
  match s.loop with
  | .rebuildChecks msg (refused :: left) =>
    some { s with loop := if s.manager.maintenanceState = refused then .idle
      else .rebuildChecks msg left }
  | _ => none

/-- `dispatch_rebuild` up to its first `await`. -/
def dispatch (s : Server) : Option Server :=
  match s.loop with
  | .rebuildChecks msg [] =>
    some { s with
      manager := { s.manager with
        rebuildFutures := msg.requestId :: s.manager.rebuildFutures
        maintenanceState := .rebuilding }
      loop := .idle
      sending := s.sending ++ [msg] }
  | _ => none

/-- `send_one` returns: the scheduler receives the request. -/
def sendOk (s : Server) (msg : CacheRebuildMsg) : Option Server :=
  if s.loop = .idle ∧ msg ∈ s.sending then
    some { s with
      sending := s.sending.erase msg
      waiting := s.waiting ++ [msg.requestId]
      backend := s.backend ++ [msg] }
  else none

/-- `send_one` raises: the gate is rolled back. -/
def sendError (s : Server) (msg : CacheRebuildMsg) : Option Server :=
  if s.loop = .idle ∧ msg ∈ s.sending then
    some { s with
      manager := { s.manager with
        rebuildFutures := s.manager.rebuildFutures.erase msg.requestId
        maintenanceState := .serving }
      sending := s.sending.erase msg }
  else none

/-- The future is popped, and set where it was there. -/
def setFuture (s : Server) (requestId : Text) (result : RebuildResult) : Server :=
  if s.manager.rebuildFutures.contains requestId then
    { s with
      manager := { s.manager with rebuildFutures := s.manager.rebuildFutures.erase requestId }
      results := s.results ++ [(requestId, result)] }
  else s

/-- `_resolve_rebuild` up to what it writes to the state. -/
def rebuildReply (s : Server) (msg : CacheRebuildMsg) (reply : CacheRebuildReply) : Option Server :=
  if s.loop = .idle ∧ msg ∈ s.backend ∧ reply.requestId = msg.requestId then
    let s := { s with
      manager := { s.manager with lastRebuild := some reply }
      backend := s.backend.erase msg }
    let s := s.setFuture reply.requestId (.reply reply)
    some { s with
      loop := .resolving (if s.manager.fatalError.isSome then false else reply.status ≠ .failed) }
  else none

/-- The last statement of `_resolve_rebuild`. -/
def resolve (s : Server) : Option Server :=
  match s.loop with
  | .resolving serving =>
    some { s.setMaintenance (if serving then .serving else .failed) with loop := .idle }
  | _ => none

def resolveAll (s : Server) : Option Server :=
  if s.loop = .idle then
    match s.callbacks with
    | message :: rest =>
      some { s with
        manager := { s.manager with rebuildFutures := [] }
        results :=
          s.results ++ s.manager.rebuildFutures.map fun requestId => (requestId, .died message)
        callbacks := rest }
    | [] => none
  else none

/-- `prepare_stop_accounting` takes the lock; it returns what is sealed, or reads the state. -/
def prepareStop (s : Server) : Option Server :=
  if s.loop = .idle ∧ s.prepare = none then
    some (if s.manager.sealedAccounting.isSome then s
    else { s with loop := .preparing s.manager.maintenanceState })
  else none

/-- `prepare_stop_accounting` refuses during a rebuild, and else closes the gate. -/
def closeGate (s : Server) : Option Server :=
  match s.loop with
  | .preparing found =>
    some (if found = .rebuilding then { s with loop := .idle }
    else { s.setMaintenance .stopping with loop := .idle, prepare := some .draining })
  | _ => none

/-- The requests that are left are to be aborted. -/
def drainTimeout (s : Server) : Option Server :=
  if s.loop = .idle ∧ s.prepare = some .draining ∧ 0 < s.manager.stats.active then
    some { s with prepare := some (.aborting s.manager.stats.inflightUids) }
  else none

/-- `abort_user` for one of them. -/
def abortInflight (s : Server) (uid : ℕ) : Option Server :=
  match s.prepare with
  | some (.aborting uids) =>
    if s.loop = .idle ∧ uid ∈ uids then
      some { s with manager := s.manager.abortUser uid, prepare := some (.aborting (uids.erase uid))
        }
    else none
  | _ => none

/-- `AccountingDrainError`: the lock is released and the gate stays closed. -/
def releaseLock (s : Server) : Option Server :=
  if s.loop = .idle then some { s with prepare := none } else none

def abortsSent (s : Server) : Option Server :=
  if s.loop = .idle ∧ s.prepare = some (.aborting []) then some { s with prepare := some .barrier }
    else none

/-- No request is active: the totals are sealed. -/
def sealTotals (s : Server) (now : ℤ) : Option Server :=
  if s.loop = .idle ∧ (s.prepare = some .draining ∨ s.prepare = some .barrier) ∧
    s.manager.stats.active = 0 then
    some { s with manager := s.manager.sealTotals now, prepare := none }
  else none

/-- `_on_ready` reads the state. -/
def onReady (s : Server) : Option Server :=
  if s.supervisor = .draining then
    some { s with supervisor := if s.manager.maintenanceState = .loading then .ready
      else .watching }
  else none

/-- `_on_ready` writes the state. -/
def openGate (s : Server) : Option Server :=
  if s.supervisor = .ready then some { s.setMaintenance .serving with supervisor := .stamping }
    else none

/-- `_on_ready` writes `ready_at`. -/
def stampReady (s : Server) (now : ℤ) : Option Server :=
  if s.supervisor = .stamping then
    some { s with manager := { s.manager with readyAt := some now }, supervisor := .watching }
  else none

/-- `_on_failure` latches the error. -/
def onFailure (s : Server) (message : Text) : Option Server :=
  if s.supervisor = .draining ∨ s.supervisor = .watching then
    some { s with
      manager := { s.manager with fatalError := some message }
      supervisor := .latching message }
  else none

/-- `_on_failure` writes the state and has the waiters woken. -/
def latchFailed (s : Server) : Option Server :=
  match s.supervisor with
  | .latching message =>
    some { s.setMaintenance .failed with
      supervisor := .exited
      callbacks := s.callbacks ++ [message] }
  | _ => none

/-- The deaths of the workers are expected. -/
def shuttingDown (s : Server) : Option Server :=
  if s.supervisor = .draining ∨ s.supervisor = .watching then some { s with supervisor := .exited }
    else none

/-- What an event does; `none` where it cannot happen. -/
def step (s : Server) : Event → Option Server
  -- the comparison of `new_user` is what admits the request
  | .newUser => if s.loop = .idle then some { s with manager := s.manager.newUser.getD s.manager }
    else none
  | .userReply uid msg =>
    if s.loop = .idle then some { s with manager := s.manager.onReply uid msg } else none
  | .abortUser uid => if s.loop = .idle then some { s with manager := s.manager.abortUser uid }
    else none
  | .cacheRebuild msg => if s.loop = .idle then some { s with loop := .rebuildChecks msg refusals }
    else none
  | .rebuildCheck => s.rebuildCheck
  | .dispatch => s.dispatch
  | .sendOk msg => s.sendOk msg
  | .sendError msg => s.sendError msg
  | .rebuildTimeout requestId =>
    if s.loop = .idle ∧ s.waiting.contains requestId then
      some { s with
        manager := { s.manager with rebuildFutures := s.manager.rebuildFutures.erase requestId }
        waiting := s.waiting.erase requestId }
    else none
  | .rebuildReturns requestId =>
    if s.loop = .idle ∧ s.waiting.contains requestId ∧ (s.results.lookup requestId).isSome then
      some { s with
        waiting := s.waiting.erase requestId
        results := s.results.filter fun result => result.1 ≠ requestId }
    else none
  | .rebuildReply msg reply => s.rebuildReply msg reply
  | .resolve => s.resolve
  | .resolveAll => s.resolveAll
  | .prepareStop => s.prepareStop
  | .closeGate => s.closeGate
  | .drainTimeout => s.drainTimeout
  | .abortInflight uid => s.abortInflight uid
  | .abortFailed => if s.prepare.any (fun p => p matches .aborting _) then s.releaseLock else none
  | .abortsSent => s.abortsSent
  | .barrierTimeout => if s.prepare = some .barrier ∧ 0 < s.manager.stats.active then s.releaseLock
    else none
  | .sealTotals now => s.sealTotals now
  | .onReady => s.onReady
  | .openGate => s.openGate
  | .stampReady now => s.stampReady now
  | .onFailure message => s.onFailure message
  | .latchFailed => s.latchFailed
  | .shuttingDown => s.shuttingDown

/-- The gate is closed for good: a worker has died, or the totals are sealed. -/
def Closed (s : Server) : Prop := s.manager.fatalError ≠ none ∨ s.manager.sealedAccounting ≠ none

/-- What a closed gate keeps: no request is admitted, the state does not come back to `serving`, and
sealed totals stay. -/
structure StaysClosed (s s' : Server) : Prop where
  admits_none : s'.manager.uidCounter = s.manager.uidCounter
  not_serving : s.manager.maintenanceState ≠ .serving → s'.manager.maintenanceState ≠ .serving
  sealed_eq : ∀ totals, s.manager.sealedAccounting = some totals → s'.manager.sealedAccounting =
    some totals

/-- Where no step overtakes a write of the state. -/
def Orderly (s : Server) : Event → Prop
  -- no request comes between the two writes of `_on_failure` while the gate is still open
  | .newUser => ∀ message, s.supervisor = .latching message → s.manager.maintenanceState ≠ .serving
  -- no worker has died while the request was sent
  | .sendError _ => s.manager.fatalError = none
  -- no worker dies between the check of `_resolve_rebuild` and its write
  | .resolve => s.loop = .resolving true → s.manager.fatalError = none
  -- the gate is not closed between the check of `_on_ready` and its write
  | .openGate => s.manager.maintenanceState = .loading
  | _ => True

end Server

end MaintenanceGate

end FreeToken
