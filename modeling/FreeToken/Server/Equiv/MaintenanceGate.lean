import FreeToken.Lib.Transition
import FreeToken.Server.MaintenanceGate

/-!
# A closed gate stays closed

`GateInv` is what holds in every state that an orderly run reaches.  While no error is latched, at
most one rebuild is under way, and the state is `rebuilding` as long as there is one; a stop that
prepares or has sealed keeps the state away from `serving`.

* `step_inv`: every orderly step keeps the invariant.
* `step_staysClosed`: an orderly step leaves a closed gate closed.
-/

namespace FreeToken

open List Option

namespace MaintenanceGate

namespace Server

variable {s s' : Server} {e : Event} {msg : CacheRebuildMsg} {reply : CacheRebuildReply} {uid : ℕ}
  {now : ℤ} {message : Text}

/-! ### What the handlers do -/

private theorem guard_eq_some {p : Prop} [Decidable p] {t : Server} :
    (if p then some t else none) = some s' ↔ p ∧ s' = t := by
  rw [ite_none_right_eq_some, some_inj, @eq_comm _ t]

theorem rebuildCheck_eq_some : s.rebuildCheck = some s' ↔ ∃ msg refused left,
    s.loop = .rebuildChecks msg (refused :: left) ∧
      s' = { s with loop := if s.manager.maintenanceState = refused then .idle
        else .rebuildChecks msg left } := by
  constructor
  · intro h
    unfold rebuildCheck at h
    split at h
    · next msg refused left hloop => exact ⟨msg, refused, left, hloop, (Option.some.inj h).symm⟩
    · cases h
  · rintro ⟨msg, refused, left, hloop, rfl⟩
    unfold rebuildCheck
    rw [hloop]

theorem dispatch_eq_some : s.dispatch = some s' ↔ ∃ msg, s.loop = .rebuildChecks msg [] ∧
    s' = { s with
      manager := { s.manager with
        rebuildFutures := msg.requestId :: s.manager.rebuildFutures
        maintenanceState := .rebuilding }
      loop := .idle
      sending := s.sending ++ [msg] } := by
  constructor
  · intro h
    unfold dispatch at h
    split at h
    · next msg hloop => exact ⟨msg, hloop, (Option.some.inj h).symm⟩
    · cases h
  · rintro ⟨msg, hloop, rfl⟩
    unfold dispatch
    rw [hloop]

theorem resolve_eq_some : s.resolve = some s' ↔
    ∃ serving, s.loop = .resolving serving ∧
      s' = { s.setMaintenance (if serving then .serving else .failed) with loop := .idle } := by
  constructor
  · intro h
    unfold resolve at h
    split at h
    · next serving hloop => exact ⟨serving, hloop, (Option.some.inj h).symm⟩
    · cases h
  · rintro ⟨serving, hloop, rfl⟩
    unfold resolve
    rw [hloop]

theorem closeGate_eq_some : s.closeGate = some s' ↔ ∃ found, s.loop = .preparing found ∧
    s' = if found = .rebuilding then { s with loop := .idle }
      else { s.setMaintenance .stopping with loop := .idle, prepare := some .draining } := by
  constructor
  · intro h
    unfold closeGate at h
    split at h
    · next found hloop => exact ⟨found, hloop, (Option.some.inj h).symm⟩
    · cases h
  · rintro ⟨found, hloop, rfl⟩
    unfold closeGate
    rw [hloop]

theorem abortInflight_eq_some :
    s.abortInflight uid = some s' ↔ ∃ uids, s.prepare = some (.aborting uids) ∧
    (s.loop = .idle ∧ uid ∈ uids) ∧
      s' = { s with manager := s.manager.abortUser uid, prepare := some (.aborting (uids.erase uid))
        } := by
  constructor
  · intro h
    unfold abortInflight at h
    split at h
    · next uids hprepare =>
      exact ⟨uids, hprepare, guard_eq_some.mp h⟩
    · cases h
  · rintro ⟨uids, hprepare, hguard, rfl⟩
    unfold abortInflight
    rw [hprepare]
    exact if_pos hguard

theorem latchFailed_eq_some :
    s.latchFailed = some s' ↔ ∃ message, s.supervisor = .latching message ∧
    s' = { s.setMaintenance .failed with
      supervisor := .exited
      callbacks := s.callbacks ++ [message] } := by
  constructor
  · intro h
    unfold latchFailed at h
    split at h
    · next message hsupervisor => exact ⟨message, hsupervisor, (Option.some.inj h).symm⟩
    · cases h
  · rintro ⟨message, hsupervisor, rfl⟩
    unfold latchFailed
    rw [hsupervisor]

theorem resolveAll_eq_some (h : s.resolveAll = some s') : ∃ message rest, s' = { s with
    manager := { s.manager with rebuildFutures := [] }
    results := s.results ++ s.manager.rebuildFutures.map fun requestId => (requestId, .died message)
    callbacks := rest } := by
  unfold resolveAll at h
  split at h
  · split at h
    · next message rest hcallbacks => exact ⟨message, rest, (Option.some.inj h).symm⟩
    · cases h
  · cases h

theorem newUser_getD (m : FrontendManager) :
    (m.newUser.getD m).maintenanceState = m.maintenanceState ∧
    (m.newUser.getD m).fatalError = m.fatalError ∧
    (m.newUser.getD m).sealedAccounting = m.sealedAccounting := by
  unfold FrontendManager.newUser
  split
  · exact ⟨rfl, rfl, rfl⟩
  · exact ⟨rfl, rfl, rfl⟩

theorem newUser_refused {m : FrontendManager} (h : m.maintenanceState ≠ .serving) :
    m.newUser = none := if_pos h

@[simp] theorem setMaintenance_manager (s : Server) (next : Maintenance) :
    (s.setMaintenance next).manager = { s.manager with maintenanceState := next } := rfl

@[simp] theorem setMaintenance_supervisor (s : Server) (next : Maintenance) :
    (s.setMaintenance next).supervisor = s.supervisor := rfl

@[simp] theorem setMaintenance_prepare (s : Server) (next : Maintenance) :
    (s.setMaintenance next).prepare = s.prepare := rfl

@[simp] theorem setMaintenance_loop (s : Server) (next : Maintenance) :
    (s.setMaintenance next).loop = s.loop := rfl

/-! ### The invariant -/

/-- Whether the event loop is about to write the outcome of a rebuild. -/
def owing : LoopPC → ℕ
  | .resolving _ => 1
  | _ => 0

/-- Rebuilds whose last word on the state is still to come. -/
def outstanding (s : Server) : ℕ := s.sending.length + s.backend.length + owing s.loop

/-- The supervisor is between the two writes of `_on_failure`. -/
def Latching (s : Server) : Prop := ∃ message, s.supervisor = .latching message

/-- What holds in every state of an orderly run. -/
structure GateInv (s : Server) : Prop where
  supervised : s.supervisor ≠ .exited → ¬ s.Latching → s.manager.fatalError = none
  blamed : s.Latching → s.manager.fatalError ≠ none
  latched : s.manager.fatalError ≠ none → s.Latching ∨ s.manager.maintenanceState ≠ .serving
  closed : s.manager.sealedAccounting ≠ none ∨ s.prepare ≠ none → s.manager.maintenanceState ≠
    .serving
  fresh : s.manager.maintenanceState = .loading → s.manager.sealedAccounting = none ∧
    s.prepare = none
  alone : s.manager.fatalError = none → s.outstanding ≤ 1
  undisturbed : s.manager.fatalError = none → s.outstanding ≠ 0 →
    s.manager.maintenanceState = .rebuilding ∧ s.manager.sealedAccounting = none ∧ s.prepare = none
  -- what the endpoint has compared the state with stays excluded
  checks : ∀ msg left, s.loop = .rebuildChecks msg left → s.manager.fatalError = none →
    s.manager.maintenanceState ∈ left ∨ s.manager.maintenanceState = .serving
  preparing : ∀ found, s.loop = .preparing found → s.manager.sealedAccounting = none ∧
    s.prepare = none ∧
    (s.manager.fatalError = none → found = s.manager.maintenanceState ∨ s.manager.maintenanceState =
      .serving)
  unsealed : s.prepare ≠ none → s.manager.sealedAccounting = none

theorem init_inv : GateInv {} where
  supervised _ _ := rfl
  blamed := fun ⟨_, h⟩ => SupervisorPC.noConfusion h
  latched h := absurd rfl h
  closed h := h.elim (absurd rfl) (absurd rfl)
  fresh _ := ⟨rfl, rfl⟩
  alone _ := Nat.zero_le 1
  undisturbed _ h := absurd rfl h
  checks _ _ h := LoopPC.noConfusion h
  preparing _ h := LoopPC.noConfusion h
  unsealed h := absurd rfl h

/-- The invariant does not see the other parts of the state. -/
theorem GateInv.frame (h : GateInv s)
    (hstate : s'.manager.maintenanceState = s.manager.maintenanceState)
    (hfatal : s'.manager.fatalError = s.manager.fatalError)
    (hsealed : s'.manager.sealedAccounting = s.manager.sealedAccounting)
    (hprepare : s'.prepare = none ↔ s.prepare = none) (hsupervisor : s'.supervisor = s.supervisor)
    (hchecks : ∀ msg left, s'.loop = .rebuildChecks msg left → s.loop = .rebuildChecks msg left)
    (hpreparing : ∀ found, s'.loop = .preparing found → s.loop = .preparing found)
    (hcount : s'.outstanding = s.outstanding) : GateInv s' := by
  have hlatching : s'.Latching ↔ s.Latching := by
    unfold Latching
    rw [hsupervisor]
  constructor
  · rw [hsupervisor, hlatching, hfatal]
    exact h.supervised
  · rw [hlatching, hfatal]
    exact h.blamed
  · rw [hfatal, hlatching, hstate]
    exact h.latched
  · rw [hsealed, ne_eq s'.prepare, hprepare, hstate]
    exact h.closed
  · rw [hsealed, hprepare, hstate]
    exact h.fresh
  · rw [hfatal, hcount]
    exact h.alone
  · rw [hfatal, hcount, hstate, hsealed, hprepare]
    exact h.undisturbed
  · rw [hfatal, hstate]
    exact fun msg left hloop => h.checks msg left (hchecks msg left hloop)
  · rw [hsealed, hprepare, hfatal, hstate]
    exact fun found hloop => h.preparing found (hpreparing found hloop)
  · rw [ne_eq s'.prepare, hprepare, hsealed]
    exact h.unsealed

/-! ### The steps -/

theorem outstanding_eq {n : ℕ} (h : owing s.loop = n) :
    s.outstanding = s.sending.length + s.backend.length + n := by
  rw [← h]
  rfl

/-- The gate is open: nothing prepares a stop, nothing is sealed and no rebuild is under way. -/
theorem GateInv.of_serving (h : GateInv s) (hstate : s.manager.maintenanceState = .serving) :
    s.manager.sealedAccounting = none ∧ s.prepare = none ∧
      (s.manager.fatalError = none → s.outstanding = 0) := by
  refine ⟨?_, ?_, fun hfatal => ?_⟩
  · by_contra hsealed
    exact h.closed (.inl hsealed) hstate
  · by_contra hprepare
    exact h.closed (.inr hprepare) hstate
  · by_contra hcount
    have hrebuilding := (h.undisturbed hfatal hcount).1
    rw [hstate] at hrebuilding
    cases hrebuilding

theorem GateInv.withLoop (h : GateInv s) {loop : LoopPC}
    (hcount : outstanding { s with loop := loop } = s.outstanding)
    (hchecks : ∀ msg left, loop = .rebuildChecks msg left → s.manager.fatalError = none →
      s.manager.maintenanceState ∈ left ∨ s.manager.maintenanceState = .serving)
    (hpreparing : ∀ found, loop = .preparing found → s.manager.sealedAccounting = none ∧
      s.prepare = none ∧
      (s.manager.fatalError = none → found = s.manager.maintenanceState ∨
        s.manager.maintenanceState = .serving)) :
    GateInv { s with loop := loop } := by
  constructor
  · exact h.supervised
  · exact h.blamed
  · exact h.latched
  · exact h.closed
  · exact h.fresh
  · rw [hcount]
    exact h.alone
  · rw [hcount]
    exact h.undisturbed
  · exact hchecks
  · exact hpreparing
  · exact h.unsealed

theorem GateInv.cacheRebuild (h : GateInv s) (hloop : s.loop = .idle) :
    GateInv { s with loop := .rebuildChecks msg refusals } := by
  refine h.withLoop (outstanding_eq (by rw [hloop])).symm (fun _ left heq _ => ?_) fun _ heq =>
    LoopPC.noConfusion heq
  cases heq
  cases s.manager.maintenanceState <;> simp [refusals]

theorem GateInv.rebuildCheck (h : GateInv s) (hstep : s.rebuildCheck = some s') : GateInv s' := by
  obtain ⟨msg, refused, left, hloop, rfl⟩ := rebuildCheck_eq_some.mp hstep
  have hcount : s.outstanding = s.sending.length + s.backend.length + 0 :=
    outstanding_eq (by rw [hloop]; rfl)
  by_cases hrefused : s.manager.maintenanceState = refused
  · rw [if_pos hrefused]
    exact h.withLoop hcount.symm (fun _ _ heq => LoopPC.noConfusion heq) fun _ heq =>
      LoopPC.noConfusion heq
  · rw [if_neg hrefused]
    refine h.withLoop hcount.symm (fun _ _ heq hfatal => ?_) fun _ heq => LoopPC.noConfusion heq
    cases heq
    refine (h.checks msg _ hloop hfatal).imp_left fun hmem => ?_
    exact (mem_cons.mp hmem).resolve_left hrefused

theorem GateInv.dispatch (h : GateInv s) (hstep : s.dispatch = some s') : GateInv s' := by
  obtain ⟨msg, hloop, rfl⟩ := dispatch_eq_some.mp hstep
  -- every refusal has been passed, so that the state is `serving` while no error is latched
  have hserving : s.manager.fatalError = none → s.manager.maintenanceState = .serving :=
    fun hfatal =>
    (h.checks msg [] hloop hfatal).resolve_left not_mem_nil
  have hcount : s.manager.fatalError = none → s.sending.length + s.backend.length = 0 :=
    fun hfatal => by
    have hzero := (h.of_serving (hserving hfatal)).2.2 hfatal
    rw [outstanding_eq (n := 0) (by rw [hloop]; rfl)] at hzero
    exact hzero
  constructor
  · exact h.supervised
  · exact h.blamed
  · exact fun _ => .inr Maintenance.noConfusion
  · exact fun _ => Maintenance.noConfusion
  · exact fun heq => Maintenance.noConfusion heq
  · intro hfatal
    have hzero := hcount hfatal
    show (s.sending ++ [msg]).length + s.backend.length + 0 ≤ 1
    rw [length_append, length_singleton]
    omega
  · intro hfatal _
    have hopen := h.of_serving (hserving hfatal)
    exact ⟨rfl, hopen.1, hopen.2.1⟩
  · exact fun _ _ h => LoopPC.noConfusion h
  · exact fun _ h => LoopPC.noConfusion h
  · exact h.unsealed

theorem GateInv.sendOk (h : GateInv s) (hstep : s.sendOk msg = some s') : GateInv s' := by
  obtain ⟨⟨hloop, hmem⟩, rfl⟩ := guard_eq_some.mp hstep
  refine h.frame rfl rfl rfl Iff.rfl rfl (fun _ _ => id) (fun _ => id) ?_
  have hpos := length_pos_of_mem hmem
  show (s.sending.erase msg).length + (s.backend ++ [msg]).length + owing s.loop = s.outstanding
  rw [outstanding, length_erase_of_mem hmem, length_append, length_singleton]
  omega

theorem GateInv.sendError (h : GateInv s) (hfatal : s.manager.fatalError = none)
    (hstep : s.sendError msg = some s') : GateInv s' := by
  obtain ⟨⟨hloop, hmem⟩, rfl⟩ := guard_eq_some.mp hstep
  have hpos := length_pos_of_mem hmem
  have hcount : s.outstanding = s.sending.length + s.backend.length + 0 :=
    outstanding_eq (by rw [hloop]; rfl)
  have halone := h.alone hfatal
  have hopen := h.undisturbed hfatal (by omega)
  have hzero : (s.sending.erase msg).length + s.backend.length + owing s.loop = 0 := by
    rw [length_erase_of_mem hmem, hloop]
    show _ + 0 = 0
    omega
  constructor
  · exact h.supervised
  · exact h.blamed
  · exact fun h => absurd hfatal h
  · exact fun hnot => absurd hnot (by simp [hopen])
  · exact fun heq => Maintenance.noConfusion heq
  · exact fun _ => hzero.le.trans zero_le_one
  · exact fun _ hnot => absurd hzero hnot
  · exact fun _ _ _ _ => .inr rfl
  · exact fun _ heq => LoopPC.noConfusion (hloop.symm.trans heq)
  · exact h.unsealed

theorem rebuildReply_spec (hstep : s.rebuildReply msg reply = some s') :
    s.loop = .idle ∧ msg ∈ s.backend ∧
      (∃ serving, s'.loop = .resolving serving) ∧
      s'.manager.maintenanceState = s.manager.maintenanceState ∧ s'.manager.fatalError =
        s.manager.fatalError ∧
      s'.manager.sealedAccounting = s.manager.sealedAccounting ∧ s'.manager.uidCounter =
        s.manager.uidCounter ∧
      s'.prepare = s.prepare ∧ s'.supervisor = s.supervisor ∧ s'.sending = s.sending ∧
      s'.backend = s.backend.erase msg := by
  obtain ⟨⟨hloop, hmem, -⟩, rfl⟩ := guard_eq_some.mp hstep
  refine ⟨hloop, hmem, ⟨_, rfl⟩, ?_⟩
  unfold setFuture
  split <;> exact ⟨rfl, rfl, rfl, rfl, rfl, rfl, rfl, rfl⟩

theorem GateInv.rebuildReply (h : GateInv s) (hstep : s.rebuildReply msg reply = some s') :
    GateInv s' := by
  obtain ⟨hloop, hmem, ⟨serving, hresolving⟩, hstate, hfatal, hsealed, -, hprepare, hsupervisor,
    hsending, hbackend⟩ :=
    rebuildReply_spec hstep
  refine h.frame hstate hfatal hsealed (by rw [hprepare]) hsupervisor ?_ ?_ ?_
  · exact fun _ _ heq => LoopPC.noConfusion (hresolving.symm.trans heq)
  · exact fun _ heq => LoopPC.noConfusion (hresolving.symm.trans heq)
  · -- the reply leaves the backend, and is owed by the event loop
    have hpos := length_pos_of_mem hmem
    rw [outstanding, outstanding, hsending, hbackend, hresolving, hloop, length_erase_of_mem hmem]
    show _ + 1 = _ + 0
    omega

theorem GateInv.resolve (h : GateInv s)
    (hfatal : s.loop = .resolving true → s.manager.fatalError = none)
    (hstep : s.resolve = some s') : GateInv s' := by
  obtain ⟨serving, hloop, rfl⟩ := resolve_eq_some.mp hstep
  have hcount : s.outstanding = s.sending.length + s.backend.length + 1 :=
    outstanding_eq (by rw [hloop]; rfl)
  -- while no error is latched, this rebuild is the only one
  have hlast : s.manager.fatalError = none → s.sending.length + s.backend.length + 0 = 0 :=
    fun hnone => by
    have halone := h.alone hnone
    omega
  have hopen : serving = true → s.manager.sealedAccounting = none ∧ s.prepare = none := fun heq =>
    (h.undisturbed (hfatal (heq ▸ hloop)) (by omega)).2
  constructor
  · exact h.supervised
  · exact h.blamed
  · rintro hlatched
    cases serving with
    | false => exact .inr Maintenance.noConfusion
    | true => exact absurd (hfatal hloop) hlatched
  · rintro hnot
    cases serving with
    | false => exact Maintenance.noConfusion
    | true =>
      have hboth := hopen rfl
      exact absurd hnot (by simp [hboth])
  · cases serving <;> exact fun heq => Maintenance.noConfusion heq
  · exact fun hnone => (hlast hnone).le.trans zero_le_one
  · exact fun hnone hne => absurd (hlast hnone) hne
  · exact fun _ _ heq => LoopPC.noConfusion heq
  · exact fun _ heq => LoopPC.noConfusion heq
  · exact h.unsealed

theorem GateInv.prepareStop (h : GateInv s) (hstep : s.prepareStop = some s') : GateInv s' := by
  obtain ⟨⟨hloop, hprepare⟩, rfl⟩ := guard_eq_some.mp hstep
  cases hsealed : s.manager.sealedAccounting with
  | some totals => exact h
  | none =>
    refine h.withLoop (outstanding_eq (by rw [hloop])).symm (fun _ _ heq => LoopPC.noConfusion heq)
      fun found heq => ?_
    cases heq
    exact ⟨hsealed, hprepare, fun _ => .inl rfl⟩

theorem GateInv.closeGate (h : GateInv s) (hstep : s.closeGate = some s') : GateInv s' := by
  obtain ⟨found, hloop, rfl⟩ := closeGate_eq_some.mp hstep
  have hcount : s.outstanding = s.sending.length + s.backend.length + 0 :=
    outstanding_eq (by rw [hloop]; rfl)
  obtain ⟨hsealed, hprepare, hfound⟩ := h.preparing found hloop
  by_cases hrebuilding : found = .rebuilding
  · rw [if_pos hrebuilding]
    exact h.withLoop hcount.symm (fun _ _ heq => LoopPC.noConfusion heq) fun _ heq =>
      LoopPC.noConfusion heq
  · rw [if_neg hrebuilding]
    -- what was read is not `rebuilding`, and neither is the state by now
    have hzero : s.manager.fatalError = none → s.outstanding = 0 := fun hnone => by
      by_contra hne
      have hstate := (h.undisturbed hnone hne).1
      rcases hfound hnone with heq | heq
      · exact hrebuilding (heq.trans hstate)
      · exact Maintenance.noConfusion (heq.symm.trans hstate)
    constructor
    · exact h.supervised
    · exact h.blamed
    · exact fun _ => .inr Maintenance.noConfusion
    · exact fun _ => Maintenance.noConfusion
    · exact fun heq => Maintenance.noConfusion heq
    · exact fun hnone => (hcount.symm.trans (hzero hnone)).le.trans zero_le_one
    · exact fun hnone hne => absurd (hcount.symm.trans (hzero hnone)) hne
    · exact fun _ _ heq => LoopPC.noConfusion heq
    · exact fun _ heq => LoopPC.noConfusion heq
    · exact fun _ => hsealed

theorem GateInv.releaseLock (h : GateInv s) (hstep : s.releaseLock = some s') : GateInv s' := by
  obtain ⟨hloop, rfl⟩ := guard_eq_some.mp hstep
  constructor
  · exact h.supervised
  · exact h.blamed
  · exact h.latched
  · exact fun hnot => h.closed (.inl (hnot.resolve_right (absurd rfl)))
  · exact fun heq => ⟨(h.fresh heq).1, rfl⟩
  · exact h.alone
  · exact fun hnone hne => ⟨(h.undisturbed hnone hne).1, (h.undisturbed hnone hne).2.1, rfl⟩
  · exact h.checks
  · exact fun _ heq => LoopPC.noConfusion (hloop.symm.trans heq)
  · exact absurd rfl

theorem GateInv.sealTotals (h : GateInv s) (hstep : s.sealTotals now = some s') : GateInv s' := by
  obtain ⟨⟨hloop, hphase, -⟩, rfl⟩ := guard_eq_some.mp hstep
  have hprepare : s.prepare ≠ none := by
    rcases hphase with heq | heq <;> rw [heq] <;> exact some_ne_none _
  have hclosed := h.closed (.inr hprepare)
  constructor
  · exact h.supervised
  · exact h.blamed
  · exact fun _ => .inr hclosed
  · exact fun _ => hclosed
  · exact fun heq => absurd (h.fresh heq).2 hprepare
  · exact h.alone
  · exact fun hnone hne => absurd (h.undisturbed hnone hne).2.2 hprepare
  · exact h.checks
  · exact fun _ heq => LoopPC.noConfusion (hloop.symm.trans heq)
  · exact absurd rfl

theorem GateInv.fatal_eq_none (h : GateInv s) (hsupervisor : s.supervisor = .draining ∨
      s.supervisor = .ready ∨
    s.supervisor = .stamping ∨ s.supervisor = .watching) : s.manager.fatalError = none := by
  refine h.supervised (fun hexited => ?_) fun ⟨message, hlatching⟩ => ?_
  · rw [hexited] at hsupervisor
    simp at hsupervisor
  · rw [hlatching] at hsupervisor
    simp at hsupervisor

theorem GateInv.withSupervisor (h : GateInv s) (hfatal : s.manager.fatalError = none)
    (hmanager : s'.manager.maintenanceState = s.manager.maintenanceState ∧
      s'.manager.fatalError = s.manager.fatalError ∧
      s'.manager.sealedAccounting = s.manager.sealedAccounting)
    (hprepare : s'.prepare = s.prepare) (hloop : s'.loop = s.loop)
    (hcount : s'.outstanding = s.outstanding) (hlatching : ¬ s'.Latching) : GateInv s' := by
  obtain ⟨hstate, hfatal', hsealed⟩ := hmanager
  constructor
  · exact fun _ _ => hfatal'.trans hfatal
  · exact fun hnot => absurd hnot hlatching
  · exact fun hlatched => absurd (hfatal'.trans hfatal) hlatched
  · rw [hsealed, hprepare, hstate]
    exact h.closed
  · rw [hsealed, hprepare, hstate]
    exact h.fresh
  · rw [hfatal', hcount]
    exact h.alone
  · rw [hfatal', hcount, hstate, hsealed, hprepare]
    exact h.undisturbed
  · rw [hloop, hfatal', hstate]
    exact h.checks
  · rw [hloop, hsealed, hprepare, hfatal', hstate]
    exact h.preparing
  · rw [hsealed, hprepare]
    exact h.unsealed

theorem GateInv.onReady (h : GateInv s) (hstep : s.onReady = some s') : GateInv s' := by
  obtain ⟨hdraining, rfl⟩ := guard_eq_some.mp hstep
  refine h.withSupervisor (h.fatal_eq_none (.inl hdraining)) ⟨rfl, rfl, rfl⟩ rfl rfl rfl ?_
  rintro ⟨message, hlatching⟩
  dsimp only at hlatching
  split at hlatching <;> cases hlatching

theorem GateInv.openGate (h : GateInv s) (hstate : s.manager.maintenanceState = .loading)
    (hstep : s.openGate = some s') : GateInv s' := by
  obtain ⟨hready, rfl⟩ := guard_eq_some.mp hstep
  have hfatal := h.fatal_eq_none (.inr (.inl hready))
  have hzero : s.outstanding = 0 := by
    by_contra hne
    exact Maintenance.noConfusion (hstate.symm.trans (h.undisturbed hfatal hne).1)
  have hfresh := h.fresh hstate
  constructor
  · exact fun _ _ => hfatal
  · exact fun ⟨_, heq⟩ => SupervisorPC.noConfusion heq
  · exact fun hlatched => absurd hfatal hlatched
  · exact fun hnot => absurd hnot (by simp [hfresh])
  · exact fun heq => Maintenance.noConfusion heq
  · exact fun _ => hzero.le.trans zero_le_one
  · exact fun _ hne => absurd hzero hne
  · exact fun _ _ _ _ => .inr rfl
  · exact fun found heq => ⟨hfresh.1, hfresh.2, fun _ => .inr rfl⟩
  · exact fun hne => absurd hfresh.2 hne

theorem GateInv.stampReady (h : GateInv s) (hstep : s.stampReady now = some s') : GateInv s' := by
  obtain ⟨hstamping, rfl⟩ := guard_eq_some.mp hstep
  exact h.withSupervisor (h.fatal_eq_none (.inr (.inr (.inl hstamping)))) ⟨rfl, rfl, rfl⟩ rfl rfl
    rfl fun ⟨_, heq⟩ => SupervisorPC.noConfusion heq

theorem GateInv.shuttingDown (h : GateInv s) (hstep : s.shuttingDown = some s') : GateInv s' := by
  obtain ⟨hsupervisor, rfl⟩ := guard_eq_some.mp hstep
  refine h.withSupervisor (h.fatal_eq_none ?_) ⟨rfl, rfl, rfl⟩ rfl rfl rfl fun ⟨_, heq⟩ =>
    SupervisorPC.noConfusion heq
  exact hsupervisor.imp_right fun hwatching => .inr (.inr hwatching)

theorem GateInv.onFailure (h : GateInv s) (hstep : s.onFailure message = some s') : GateInv s' := by
  obtain ⟨-, rfl⟩ := guard_eq_some.mp hstep
  have hfatal : some message ≠ none := some_ne_none message
  constructor
  · exact fun _ hnot => absurd ⟨message, rfl⟩ hnot
  · exact fun _ => hfatal
  · exact fun _ => .inl ⟨message, rfl⟩
  · exact h.closed
  · exact h.fresh
  -- the rest is about a server without an error
  · exact fun hnone => absurd hnone hfatal
  · exact fun hnone => absurd hnone hfatal
  · exact fun _ _ _ hnone => absurd hnone hfatal
  · exact fun found heq =>
      ⟨(h.preparing found heq).1, (h.preparing found heq).2.1, fun hnone => absurd hnone hfatal⟩
  · exact h.unsealed

theorem GateInv.latchFailed (h : GateInv s) (hstep : s.latchFailed = some s') : GateInv s' := by
  obtain ⟨message, hlatching, rfl⟩ := latchFailed_eq_some.mp hstep
  have hfatal := h.blamed ⟨message, hlatching⟩
  constructor
  · exact fun hne => absurd rfl hne
  · exact fun _ => hfatal
  · exact fun _ => .inr Maintenance.noConfusion
  · exact fun _ => Maintenance.noConfusion
  · exact fun heq => Maintenance.noConfusion heq
  · exact fun hnone => absurd hnone hfatal
  · exact fun hnone => absurd hnone hfatal
  · exact fun _ _ _ hnone => absurd hnone hfatal
  · exact fun found heq =>
      ⟨(h.preparing found heq).1, (h.preparing found heq).2.1, fun hnone => absurd hnone hfatal⟩
  · exact h.unsealed

/-- **Every orderly step keeps the invariant.** -/
theorem step_inv (h : GateInv s) (horderly : s.Orderly e) (hstep : s.step e = some s') :
    GateInv s' := by
  -- the events that leave the gate alone keep everything by the frame lemma
  cases e with
  | newUser =>
    obtain ⟨-, rfl⟩ := guard_eq_some.mp hstep
    obtain ⟨hstate, hfatal, hsealed⟩ := newUser_getD s.manager
    exact h.frame hstate hfatal hsealed Iff.rfl rfl (fun _ _ => id) (fun _ => id) rfl
  | userReply uid msg =>
    obtain ⟨-, rfl⟩ := guard_eq_some.mp hstep
    exact h.frame rfl rfl rfl Iff.rfl rfl (fun _ _ => id) (fun _ => id) rfl
  | abortUser uid =>
    obtain ⟨-, rfl⟩ := guard_eq_some.mp hstep
    exact h.frame rfl rfl rfl Iff.rfl rfl (fun _ _ => id) (fun _ => id) rfl
  | cacheRebuild msg =>
    obtain ⟨hloop, rfl⟩ := guard_eq_some.mp hstep
    exact h.cacheRebuild hloop
  | rebuildCheck => exact h.rebuildCheck hstep
  | dispatch => exact h.dispatch hstep
  | sendOk msg => exact h.sendOk hstep
  | sendError msg => exact h.sendError horderly hstep
  | rebuildTimeout requestId =>
    obtain ⟨-, rfl⟩ := guard_eq_some.mp hstep
    exact h.frame rfl rfl rfl Iff.rfl rfl (fun _ _ => id) (fun _ => id) rfl
  | rebuildReturns requestId =>
    obtain ⟨-, rfl⟩ := guard_eq_some.mp hstep
    exact h.frame rfl rfl rfl Iff.rfl rfl (fun _ _ => id) (fun _ => id) rfl
  | rebuildReply msg reply => exact h.rebuildReply hstep
  | resolve => exact h.resolve horderly hstep
  | resolveAll =>
    obtain ⟨message, rest, rfl⟩ := resolveAll_eq_some hstep
    exact h.frame rfl rfl rfl Iff.rfl rfl (fun _ _ => id) (fun _ => id) rfl
  | prepareStop => exact h.prepareStop hstep
  | closeGate => exact h.closeGate hstep
  | drainTimeout =>
    obtain ⟨⟨-, hprepare, -⟩, rfl⟩ := guard_eq_some.mp hstep
    exact h.frame rfl rfl rfl (by simp [hprepare]) rfl (fun _ _ => id) (fun _ => id) rfl
  | abortInflight uid =>
    obtain ⟨uids, hprepare, -, rfl⟩ := abortInflight_eq_some.mp hstep
    exact h.frame rfl rfl rfl (by simp [hprepare]) rfl (fun _ _ => id) (fun _ => id) rfl
  | abortFailed => exact h.releaseLock (ite_none_right_eq_some.mp hstep).2
  | abortsSent =>
    obtain ⟨⟨-, hprepare⟩, rfl⟩ := guard_eq_some.mp hstep
    exact h.frame rfl rfl rfl (by simp [hprepare]) rfl (fun _ _ => id) (fun _ => id) rfl
  | barrierTimeout => exact h.releaseLock (ite_none_right_eq_some.mp hstep).2
  | sealTotals now => exact h.sealTotals hstep
  | onReady => exact h.onReady hstep
  | openGate => exact h.openGate horderly hstep
  | stampReady now => exact h.stampReady hstep
  | onFailure message => exact h.onFailure hstep
  | latchFailed => exact h.latchFailed hstep
  | shuttingDown => exact h.shuttingDown hstep

/-! ### What a closed gate keeps -/

/-- What a step can do to the gate, and which events do it. -/
structure Effect (s : Server) (e : Event) (s' : Server) : Prop where
  uid : s'.manager.uidCounter = s.manager.uidCounter ∨ e = .newUser ∧ s.manager.maintenanceState =
    .serving
  state : s'.manager.maintenanceState = .serving → s.manager.maintenanceState = .serving ∨
    (∃ msg ∈ s.sending, s.loop = .idle ∧ e = .sendError msg) ∨ e = .resolve ∧
      s.loop = .resolving true ∨
    e = .openGate ∧ s.supervisor = .ready
  fatal : s.manager.fatalError ≠ none → s'.manager.fatalError ≠ none
  totals : s'.manager.sealedAccounting = s.manager.sealedAccounting ∨ s.prepare ≠ none

/-- A step that leaves the gate alone. -/
theorem Effect.of_eq (huid : s'.manager.uidCounter = s.manager.uidCounter)
    (hstate : s'.manager.maintenanceState = s.manager.maintenanceState)
    (hfatal : s'.manager.fatalError = s.manager.fatalError)
    (hsealed : s'.manager.sealedAccounting = s.manager.sealedAccounting) : Effect s e s' where
  uid := .inl huid
  state h := .inl (hstate.symm.trans h)
  fatal h := fun hnone => h (hfatal.symm.trans hnone)
  totals := .inl hsealed

theorem Effect.of_ne (huid : s'.manager.uidCounter = s.manager.uidCounter)
    (hstate : s'.manager.maintenanceState ≠ .serving)
    (hfatal : s'.manager.fatalError = s.manager.fatalError)
    (hsealed : s'.manager.sealedAccounting = s.manager.sealedAccounting) : Effect s e s' where
  uid := .inl huid
  state h := absurd h hstate
  fatal h := fun hnone => h (hfatal.symm.trans hnone)
  totals := .inl hsealed

theorem step_effect (hstep : s.step e = some s') : Effect s e s' := by
  cases e with
  | newUser =>
    obtain ⟨-, rfl⟩ := guard_eq_some.mp hstep
    obtain ⟨hstate, hfatal, hsealed⟩ := newUser_getD s.manager
    -- `new_user` takes a uid only while it is serving
    by_cases hserving : s.manager.maintenanceState = .serving
    · exact ⟨.inr ⟨rfl, hserving⟩, fun _ => .inl hserving, fun h hnone =>
        h (hfatal.symm.trans hnone), .inl hsealed⟩
    · have hrefused :
        s.manager.newUser.getD s.manager = s.manager := by rw [newUser_refused hserving]; rfl
      rw [hrefused]
      exact .of_eq rfl rfl rfl rfl
  | userReply uid msg =>
    obtain ⟨-, rfl⟩ := guard_eq_some.mp hstep
    exact .of_eq rfl rfl rfl rfl
  | abortUser uid =>
    obtain ⟨-, rfl⟩ := guard_eq_some.mp hstep
    exact .of_eq rfl rfl rfl rfl
  | cacheRebuild msg =>
    obtain ⟨-, rfl⟩ := guard_eq_some.mp hstep
    exact .of_eq rfl rfl rfl rfl
  | rebuildCheck =>
    obtain ⟨_, _, _, _, rfl⟩ := rebuildCheck_eq_some.mp hstep
    exact .of_eq rfl rfl rfl rfl
  | dispatch =>
    obtain ⟨_, _, rfl⟩ := dispatch_eq_some.mp hstep
    exact .of_ne rfl Maintenance.noConfusion rfl rfl
  | sendOk msg =>
    obtain ⟨-, rfl⟩ := guard_eq_some.mp hstep
    exact .of_eq rfl rfl rfl rfl
  | sendError msg =>
    obtain ⟨⟨hloop, hmem⟩, rfl⟩ := guard_eq_some.mp hstep
    exact ⟨.inl rfl, fun _ => .inr (.inl ⟨msg, hmem, hloop, rfl⟩), id, .inl rfl⟩
  | rebuildTimeout requestId =>
    obtain ⟨-, rfl⟩ := guard_eq_some.mp hstep
    exact .of_eq rfl rfl rfl rfl
  | rebuildReturns requestId =>
    obtain ⟨-, rfl⟩ := guard_eq_some.mp hstep
    exact .of_eq rfl rfl rfl rfl
  | rebuildReply msg reply =>
    obtain ⟨-, -, -, hstate, hfatal, hsealed, huid, -⟩ := rebuildReply_spec hstep
    exact .of_eq huid hstate hfatal hsealed
  | resolve =>
    obtain ⟨serving, hloop, rfl⟩ := resolve_eq_some.mp hstep
    cases serving with
    | false => exact .of_ne rfl Maintenance.noConfusion rfl rfl
    | true => exact ⟨.inl rfl, fun _ => .inr (.inr (.inl ⟨rfl, hloop⟩)), id, .inl rfl⟩
  | resolveAll =>
    obtain ⟨_, _, rfl⟩ := resolveAll_eq_some hstep
    exact .of_eq rfl rfl rfl rfl
  | prepareStop =>
    obtain ⟨-, rfl⟩ := guard_eq_some.mp hstep
    split <;> exact .of_eq rfl rfl rfl rfl
  | closeGate =>
    obtain ⟨found, -, rfl⟩ := closeGate_eq_some.mp hstep
    split
    · exact .of_eq rfl rfl rfl rfl
    · exact .of_ne rfl Maintenance.noConfusion rfl rfl
  | drainTimeout =>
    obtain ⟨-, rfl⟩ := guard_eq_some.mp hstep
    exact .of_eq rfl rfl rfl rfl
  | abortInflight uid =>
    obtain ⟨_, _, -, rfl⟩ := abortInflight_eq_some.mp hstep
    exact .of_eq rfl rfl rfl rfl
  | abortFailed =>
    obtain ⟨-, rfl⟩ := guard_eq_some.mp (ite_none_right_eq_some.mp hstep).2
    exact .of_eq rfl rfl rfl rfl
  | abortsSent =>
    obtain ⟨-, rfl⟩ := guard_eq_some.mp hstep
    exact .of_eq rfl rfl rfl rfl
  | barrierTimeout =>
    obtain ⟨-, rfl⟩ := guard_eq_some.mp (ite_none_right_eq_some.mp hstep).2
    exact .of_eq rfl rfl rfl rfl
  | sealTotals now =>
    obtain ⟨⟨-, hphase, -⟩, rfl⟩ := guard_eq_some.mp hstep
    refine ⟨.inl rfl, .inl, id, .inr ?_⟩
    rcases hphase with heq | heq <;> rw [heq] <;> exact some_ne_none _
  | onReady =>
    obtain ⟨-, rfl⟩ := guard_eq_some.mp hstep
    exact .of_eq rfl rfl rfl rfl
  | openGate =>
    obtain ⟨hready, rfl⟩ := guard_eq_some.mp hstep
    exact ⟨.inl rfl, fun _ => .inr (.inr (.inr ⟨rfl, hready⟩)), id, .inl rfl⟩
  | stampReady now =>
    obtain ⟨-, rfl⟩ := guard_eq_some.mp hstep
    exact .of_eq rfl rfl rfl rfl
  | onFailure message =>
    obtain ⟨-, rfl⟩ := guard_eq_some.mp hstep
    exact ⟨.inl rfl, .inl, fun _ => some_ne_none message, .inl rfl⟩
  | latchFailed =>
    obtain ⟨_, _, rfl⟩ := latchFailed_eq_some.mp hstep
    exact .of_ne rfl Maintenance.noConfusion rfl rfl
  | shuttingDown =>
    obtain ⟨-, rfl⟩ := guard_eq_some.mp hstep
    exact .of_eq rfl rfl rfl rfl

theorem GateInv.sealed_eq (h : GateInv s) (heffect : Effect s e s') {totals : SealedAccounting}
    (hsealed : s.manager.sealedAccounting = some totals) :
    s'.manager.sealedAccounting = some totals := by
  refine (heffect.totals.resolve_right fun hprepare => ?_).trans hsealed
  rw [h.unsealed hprepare] at hsealed
  cases hsealed

theorem GateInv.closed_step (h : GateInv s) (heffect : Effect s e s') (hclosed : s.Closed) :
    s'.Closed := by
  refine hclosed.imp heffect.fatal fun hsealed => ?_
  obtain ⟨totals, htotals⟩ := ne_none_iff_exists'.mp hsealed
  rw [h.sealed_eq heffect htotals]
  exact some_ne_none totals

theorem not_closed (hfatal : s.manager.fatalError = none)
    (hopen : s.manager.sealedAccounting = none) : ¬ s.Closed :=
  fun hclosed => hclosed.elim (absurd hfatal) (absurd hopen)

/-- **An orderly step leaves a closed gate closed.** -/
theorem step_staysClosed (h : GateInv s) (hclosed : s.Closed) (horderly : s.Orderly e)
    (hstep : s.step e = some s') : s.StaysClosed s' := by
  have heffect := step_effect hstep
  refine ⟨heffect.uid.resolve_right ?_, fun hnot hserving => ?_, fun _ => h.sealed_eq heffect⟩
  · -- a request is admitted only before the error is latched, and while nothing is sealed
    rintro ⟨rfl, hserving⟩
    refine hclosed.elim (fun hfatal => ?_) fun hsealed => hsealed (h.of_serving hserving).1
    rcases h.latched hfatal with ⟨message, hlatching⟩ | hnot
    · exact horderly message hlatching hserving
    · exact hnot hserving
  · -- the three writes of `serving`
    rcases heffect.state hserving with heq | ⟨msg, hmem, hloop, rfl⟩ | ⟨rfl, hloop⟩ | ⟨rfl, hready⟩
    · exact hnot heq
    · have hpos := length_pos_of_mem hmem
      have hcount := outstanding_eq (s := s) rfl
      exact not_closed horderly (h.undisturbed horderly (by omega)).2.1 hclosed
    · have hfatal := horderly hloop
      have hcount : s.outstanding = s.sending.length + s.backend.length + 1 :=
        outstanding_eq (by rw [hloop]; rfl)
      exact not_closed hfatal (h.undisturbed hfatal (by omega)).2.1 hclosed
    · exact not_closed (h.fatal_eq_none (.inr (.inl hready))) (h.fresh horderly).1 hclosed

theorem StaysClosed.refl (s : Server) : s.StaysClosed s := ⟨rfl, id, fun _ => id⟩

theorem StaysClosed.trans {t : Server} (h : s.StaysClosed t) (h' : t.StaysClosed s') :
    s.StaysClosed s' where
  admits_none := h'.admits_none.trans h.admits_none
  not_serving hnot := h'.not_serving (h.not_serving hnot)
  sealed_eq totals hsealed := h'.sealed_eq totals (h.sealed_eq totals hsealed)

end Server

open Transition

variable {before after : List Event} {s s' : Server}

/-- **A closed gate never reopens** in a run in which no step overtakes a write of the state. -/
theorem closed_gate_stays_closed (hbefore : run Server.step {} before = some s)
    (hmeets : Meets Server.step Server.Orderly {} before) (hclosed : s.Closed)
    (hafter : run Server.step s after = some s')
    (hmeets' : Meets Server.step Server.Orderly s after) :
    s.StaysClosed s' := by
  have hinv : s.GateInv := run_invariant Server.step_inv Server.init_inv hmeets hbefore
  have hkeeps : ∀ {t : Server} {e t'}, t.GateInv ∧ t.Closed → t.Orderly e → t.step e = some t' →
      (t'.GateInv ∧ t'.Closed) ∧ t.StaysClosed t' := fun h horderly hstep =>
    ⟨⟨Server.step_inv h.1 horderly hstep, h.1.closed_step (Server.step_effect hstep) h.2⟩,
      Server.step_staysClosed h.1 h.2 horderly hstep⟩
  exact run_relates Server.StaysClosed.refl Server.StaysClosed.trans hkeeps ⟨hinv, hclosed⟩ hmeets'
    hafter

/-- A server that has loaded and admitted a request. -/
private def serve : List Event := [.onReady, .openGate, .stampReady 0, .newUser]

private def die : List Event := [.onFailure ['d', 'e', 'a', 'd'], .latchFailed]

private def rebuildMsg : CacheRebuildMsg := ⟨['u'], some 8, none, none, none⟩

/-- The endpoint passes its checks and dispatches. -/
private def dispatchRebuild : List Event :=
  [.cacheRebuild rebuildMsg, .rebuildCheck, .rebuildCheck, .rebuildCheck, .rebuildCheck, .dispatch]

/-- A stop is prepared, while requests still come. -/
private def prepareStop : List Event :=
  [.newUser, .prepareStop, .closeGate, .userReply 0 { incrementalOutput := [], finished := true },
    .sealTotals 9, .newUser]

/-- A worker dies, and a stop is prepared afterwards. -/
theorem closed_gate_stays_closed_death : ∃ s s' : Server, s.Closed ∧
    s'.manager.sealedAccounting = some ⟨[], none, 0, 0, 9⟩ ∧ s.StaysClosed s' := by
  have hbefore : run Server.step {} (serve ++ die) = some _ := rfl
  have hmeets : Meets Server.step Server.Orderly {} (serve ++ die) := by
    refine .cons trivial rfl (.cons rfl rfl (.cons trivial rfl (.cons (fun _ h => ?_) rfl
      (.cons trivial rfl (.cons trivial rfl trivial)))))
    cases h
  have hclosed := some_ne_none ['d', 'e', 'a', 'd']
  refine ⟨_, _, .inl hclosed, ?_, closed_gate_stays_closed hbefore hmeets (.inl hclosed)
    (show run Server.step _ prepareStop = some _ from rfl) ?_⟩
  · rfl
  · refine .cons (fun _ h => ?_) rfl (.cons trivial rfl (.cons trivial rfl (.cons trivial rfl
      (.cons trivial rfl (.cons (fun _ h => ?_) rfl trivial)))))
    · cases h
    · cases h

/-- A worker dies while a rebuild is sent, and the send fails: the server admits requests again. -/
theorem not_closed_gate_stays_closed : ¬ ∀ (before after : List Event) (s s' : Server),
    run Server.step {} before = some s → s.Closed → run Server.step s after = some s' →
      s.StaysClosed s' := by
  intro h
  have hstays := h (serve ++ dispatchRebuild ++ die) [.sendError rebuildMsg, .newUser] _ _ rfl
    (.inl (some_ne_none _)) rfl
  exact absurd hstays.admits_none (by decide)

end MaintenanceGate

end FreeToken
