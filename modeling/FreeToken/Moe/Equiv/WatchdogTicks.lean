import FreeToken.Moe.Equiv.Watchdog

/-!
# A doorbell that nobody answers

The coordinator takes no further step, and the stream waits: only the watchdog and the time go on.

* `Stuck`: the doorbell is set, and not answered.
* `Tracks`: what the watchdog knows of a stuck slot after the whole ticks that have read the clock
  so far.
-/

namespace FreeToken

open Function List Option

namespace FlagSync

variable {X Y : Type} {cfg : Setup X Y}

/-- The watchdog takes a step, or time goes on. -/
def Event.Ticking : Event X Y → Prop
  | .watchdog | .elapse _ => True
  | _ => False

namespace Handshake

variable {s s' : Handshake X Y} {i : ℕ} {e : Event X Y} {rs : List ℕ}

/-! ### Values -/

theorem nonneg_update {f : ℕ → ℤ} (h : ∀ i, 0 ≤ f i) (slot : ℕ) {value : ℤ} (hvalue : 0 ≤ value)
    (i : ℕ) :
    0 ≤ update f slot value i := by
  by_cases heq : i = slot
  · rw [heq, Function.update_self]
    exact hvalue
  · rw [update_of_ne heq]
    exact h i

theorem streamStep_done_nonneg (h : ∀ i, 0 ≤ s.done i) (hstep : s.streamStep = some s') :
    ∀ i, 0 ≤ s'.done i := by
  unfold streamStep at hstep
  split at hstep
  · cases hstep
  · -- the flag is cleared before the doorbell is rung
    rw [← Option.some.inj hstep]
    exact nonneg_update h _ (Int.le_refl 0)
  · rw [← Option.some.inj hstep]
    exact h
  · obtain ⟨-, heq⟩ := ite_none_right_eq_some.mp hstep
    rw [← Option.some.inj heq]
    exact h
  · rw [← Option.some.inj hstep]
    exact h

theorem coordStep_done_nonneg (h : ∀ i, 0 ≤ s.done i) (hstep : s.coordStep cfg = some s') :
    ∀ i, 0 ≤ s'.done i := by
  unfold coordStep at hstep
  split at hstep
  · rw [← Option.some.inj hstep]
    exact h
  · rw [← Option.some.inj hstep]
    exact h
  · rw [← Option.some.inj hstep]
    exact h
  · rw [← Option.some.inj hstep]
    split <;> exact h
  · obtain ⟨-, heq⟩ := ite_none_right_eq_some.mp hstep
    rw [← Option.some.inj heq]
    exact h
  · -- the answer
    rw [← Option.some.inj hstep]
    exact nonneg_update h _ Int.one_nonneg
  · rw [← Option.some.inj hstep]
    exact h
  · -- the last value a flag gets, at the teardown
    rw [← Option.some.inj hstep]
    split
    · exact nonneg_update h _ (by decide)
    · exact h
  · cases hstep

theorem watchdogStep_done_nonneg (h : ∀ i, 0 ≤ s.done i) :
    ∀ i, 0 ≤ (s.watchdogStep cfg).done i := by
  unfold watchdogStep
  split
  · exact h
  · split <;> exact h
  · split
    · exact h
    · unfold Handshake.decide
      dsimp only
      split <;> exact h
  · unfold judge
    split
    · exact h
    · split
      · exact h
      · split <;> exact h
  · exact h
  · exact h
  · exact h
  · -- the release of a poisoned slot
    exact nonneg_update h _ Int.one_nonneg
  · exact h

/-- Only the stream, the coordinator and the watchdog store to the flags. -/
theorem done_nonneg (h : ∀ i, 0 ≤ s.done i) (hstep : s.step cfg e = some s') :
    ∀ i, 0 ≤ s'.done i := by
  -- only the stream, the coordinator and the watchdog write the done flags
  cases e with
  | register slot =>
    rw [← Option.some.inj hstep]
    exact h
  | decode slot input =>
    change s.decode cfg slot input = some s' at hstep
    unfold decode at hstep
    split at hstep
    · obtain ⟨-, heq⟩ := ite_none_right_eq_some.mp hstep
      rw [← Option.some.inj heq]
      exact h
    · cases hstep
  | stream => exact streamStep_done_nonneg h hstep
  | coord => exact coordStep_done_nonneg h hstep
  | workerTake worker =>
    obtain ⟨-, heq⟩ := ite_none_right_eq_some.mp hstep
    rw [← Option.some.inj heq]
    exact h
  | workerWrite worker value =>
    change s.workerWrite cfg worker value = some s' at hstep
    unfold workerWrite at hstep
    split at hstep
    · rw [← Option.some.inj hstep]
      exact h
    · cases hstep
  | workerDone worker value =>
    change s.workerDone cfg worker value = some s' at hstep
    unfold workerDone at hstep
    split at hstep
    · rw [← Option.some.inj hstep]
      split <;> exact h
    · cases hstep
  | stop =>
    rw [← Option.some.inj hstep]
    exact h
  | watchdog =>
    rw [← Option.some.inj hstep]
    exact watchdogStep_done_nonneg h
  | elapse duration =>
    rw [← Option.some.inj hstep]
    exact h

theorem ready_bit (h : ∀ i, s.ready i = 0 ∨ s.ready i = 1) (hstep : s.step cfg e = some s')
    (i : ℕ) :
    s'.ready i = 0 ∨ s'.ready i = 1 := by
  rcases step_effect hstep with ⟨-, rfl⟩ | ⟨-, hcoord⟩ | ⟨j, input, -, -, -, hready, -⟩ |
    ⟨-, hrest, -⟩
  · rw [(watchdogStep_frame cfg s).1]
    exact h i
  · obtain ⟨-, -, heffect⟩ := coordStep_effect hcoord
    rcases heffect with ⟨hrest, -⟩ | ⟨j, hrest, -⟩ | ⟨j, -, -, hready, -⟩ | ⟨j, -, -, hready, -⟩ |
      ⟨j, -, -, hready, -⟩
    · rw [hrest.ready]
      exact h i
    · rw [hrest.ready]
      exact h i
    · by_cases heq : i = j
      · rw [hready, heq, Function.update_self]
        exact .inl rfl
      · rw [hready, update_of_ne heq]
        exact h i
    · rw [hready]
      exact h i
    · rw [hready]
      exact h i
  · by_cases heq : i = j
    · rw [hready, heq, Function.update_self]
      exact .inr rfl
    · rw [hready, update_of_ne heq]
      exact h i
  · rw [hrest.ready]
    exact h i

structure FlagValues (s : Handshake X Y) : Prop where
  ready : ∀ i, s.ready i = 0 ∨ s.ready i = 1
  done : ∀ i, 0 ≤ s.done i

theorem init_flagValues (x : ℕ → X) (y : ℕ → Y) : FlagValues ({ x, y } : Handshake X Y) :=
  ⟨fun _ => .inl rfl, fun _ => Int.le_refl 0⟩

theorem FlagValues.step (h : s.FlagValues) (hstep : s.step cfg e = some s') : s'.FlagValues :=
  ⟨ready_bit h.ready hstep, done_nonneg h.done hstep⟩

/-! ### Times -/

/-- The suspects were first seen before now. -/
structure Times (s : Handshake X Y) : Prop where
  past : ∀ i suspect, s.suspects i = some suspect → suspect.firstSeen ≤ s.clock
  judging : ∀ now left dead, s.watchdog = .judging now left dead →
    now ≤ s.clock ∧ ∀ i suspect, s.suspects i = some suspect → suspect.firstSeen ≤ now

/-- No suspect is added. -/
theorem Times.of_suspects (h : s.Times) {watchdog : WatchdogPC} {suspects : ℕ → Option Suspect}
    {err done : ℕ → ℤ}
    (hsuspects : ∀ i suspect, suspects i = some suspect → s.suspects i = some suspect)
    (hjudging : ∀ now left dead, watchdog = .judging now left dead → ∃ left' dead', s.watchdog =
      .judging now left' dead') :
    Times { s with watchdog, suspects, err, done } where
  past i suspect heq := h.past i suspect (hsuspects i suspect heq)
  judging now left dead heq := by
    obtain ⟨left', dead', heq'⟩ := hjudging now left dead heq
    obtain ⟨hnow, hpast⟩ := h.judging now left' dead' heq'
    exact ⟨hnow, fun i suspect heq => hpast i suspect (hsuspects i suspect heq)⟩

theorem Times.judge (h : s.Times) {now slot : ℕ} {left dead : List ℕ}
    (hwatchdog : s.watchdog = .judging now (slot :: left) dead) :
    (s.judge now slot left dead).Times := by
  obtain ⟨hnow, hpast⟩ := h.judging now (slot :: left) dead hwatchdog
  have harm : Times { s.arm slot now with watchdog := .judging now left dead } := by
    have hle :
      ∀ i suspect, (s.arm slot now).suspects i = some suspect → suspect.firstSeen ≤ now := by
      intro i suspect heq
      change update s.suspects slot _ i = some suspect at heq
      by_cases hi : i = slot
      · rw [hi, Function.update_self] at heq
        cases heq
        exact Nat.le_refl now
      · rw [update_of_ne hi] at heq
        exact hpast i suspect heq
    refine ⟨fun i suspect heq => (hle i suspect heq).trans hnow, fun now' left' dead' heq => ?_⟩
    cases heq
    exact ⟨hnow, hle⟩
  have hpass : ∀ dead', Times { s with watchdog := .judging now left dead' } := fun dead' =>
    h.of_suspects (fun _ _ heq => heq) fun now' left' dead'' heq => by
      cases heq
      exact ⟨slot :: left, dead, hwatchdog⟩
  unfold Handshake.judge
  split
  · exact harm
  · split
    · exact harm
    · split
      · exact hpass (dead ++ [slot])
      · exact hpass dead

theorem Times.watchdogStep (h : s.Times) : (s.watchdogStep cfg).Times := by
  have hsame : ∀ i suspect, s.suspects i = some suspect → s.suspects i = some suspect :=
    fun _ _ heq => heq
  unfold Handshake.watchdogStep
  split
  · exact h.of_suspects hsame fun _ _ _ heq => WatchdogPC.noConfusion heq
  · split <;> exact h.of_suspects hsame fun _ _ _ heq => WatchdogPC.noConfusion heq
  · split
    · exact h.of_suspects hsame fun _ _ _ heq => WatchdogPC.noConfusion heq
    · unfold Handshake.decide
      dsimp only
      split
      · exact h.of_suspects (fun _ _ heq => by cases heq) fun _ _ _ heq =>
          WatchdogPC.noConfusion heq
      · have hpast :
            ∀ (pending : List ℕ) i suspect, (if i ∈ pending then s.suspects i else none) =
            some suspect →
            suspect.firstSeen ≤ s.clock := fun pending i suspect heq => by
          split at heq
          · exact h.past i suspect heq
          · cases heq
        refine ⟨hpast _, fun now left dead heq => ?_⟩
        cases heq
        exact ⟨Nat.le_refl _, hpast _⟩
  · next now slot left dead hwatchdog => exact h.judge hwatchdog
  · refine h.of_suspects hsame fun _ _ _ heq => ?_
    split at heq <;> cases heq
  · exact h.of_suspects hsame fun _ _ _ heq => WatchdogPC.noConfusion heq
  · exact h.of_suspects hsame fun _ _ _ heq => WatchdogPC.noConfusion heq
  · next slot left hwatchdog =>
    refine h.of_suspects (fun i suspect heq => ?_) fun _ _ _ heq => WatchdogPC.noConfusion heq
    by_cases hi : i = slot
    · rw [hi, Function.update_self] at heq
      cases heq
    · rwa [update_of_ne hi] at heq
  · exact h.of_suspects hsame fun _ _ _ heq => WatchdogPC.noConfusion heq

theorem init_times (x : ℕ → X) (y : ℕ → Y) : Times ({ x, y } : Handshake X Y) where
  past _ _ heq := by cases heq
  judging _ _ _ heq := by cases heq

theorem Times.frame (h : s.Times) (hquiet : Quiet s s') : s'.Times where
  past i suspect heq := (h.past i suspect (hquiet.suspects ▸ heq)).trans hquiet.clock
  judging now left dead heq := by
    obtain ⟨hnow, hpast⟩ := h.judging now left dead (hquiet.watchdog.symm.trans heq)
    exact ⟨hnow.trans hquiet.clock, fun i suspect heq => hpast i suspect (hquiet.suspects ▸ heq)⟩

theorem Times.step (h : s.Times) (hstep : s.step cfg e = some s') : s'.Times := by
  rcases step_effect hstep with ⟨-, rfl⟩ | ⟨-, hcoord⟩ | ⟨_, _, -, -, hquiet, -⟩ | ⟨hquiet, -⟩
  · exact h.watchdogStep
  · exact h.frame (coordStep_effect hcoord).1
  · exact h.frame hquiet
  · exact h.frame hquiet

/-! ### A stuck slot -/

/-- The doorbell is set, and not answered. -/
def Stuck (s : Handshake X Y) (i : ℕ) : Prop := s.ready i = 1 ∧ s.done i = 0

/-- A slot once poisoned stays so. -/
theorem err_watchdogStep (herr : s.err i ≠ 0) : (s.watchdogStep cfg).err i ≠ 0 := by
  unfold Handshake.watchdogStep
  split
  · exact herr
  · split <;> exact herr
  · split
    · exact herr
    · unfold Handshake.decide
      dsimp only
      split <;> exact herr
  · unfold Handshake.judge
    split
    · exact herr
    · split
      · exact herr
      · split <;> exact herr
  · exact herr
  · next slot left dead hwatchdog =>
    show update s.err slot 1 i ≠ 0
    by_cases heq : i = slot
    · rw [heq, Function.update_self]
      exact Int.one_ne_zero
    · rwa [update_of_ne heq]
  · exact herr
  · exact herr
  · exact herr

theorem Stuck.watchdogStep (h : s.Stuck i) (haccused : s.Accused) (herr : s.err i = 0) :
    (s.watchdogStep cfg).Stuck i := by
  refine ⟨(congrFun (watchdogStep_frame cfg s).1 i).trans h.1, ?_⟩
  unfold Handshake.watchdogStep
  split
  · exact h.2
  · split <;> exact h.2
  · split
    · exact h.2
    · unfold Handshake.decide
      dsimp only
      split <;> exact h.2
  · unfold Handshake.judge
    split
    · exact h.2
    · split
      · exact h.2
      · split <;> exact h.2
  · exact h.2
  · exact h.2
  · exact h.2
  · next slot left hwatchdog =>
    unfold Accused at haccused
    rw [hwatchdog] at haccused
    have hne : i ≠ slot := fun heq => haccused slot mem_cons_self (heq ▸ herr)
    show update s.done slot 1 i = 0
    rw [update_of_ne hne]
    exact h.2
  · exact h.2

/-- The slot is a suspect since `r` or earlier, and at `r` the ten seconds were not over. -/
def Armed (s : Handshake X Y) (i r : ℕ) : Prop :=
  ∃ suspect, s.suspects i = some suspect ∧ suspect.served = s.flagServed i ∧
    suspect.firstSeen ≤ r ∧ r < suspect.firstSeen + kDeadline

/-- What the watchdog knows of a stuck slot after the whole ticks of the times `rs`. -/
def Tracks (s : Handshake X Y) (i : ℕ) (rs : List ℕ) : Prop :=
  match s.watchdog with
  | .sleeping => ∀ r ∈ rs, s.Armed i r
  | .readingReady slot ready => (i < slot → ready i = true) ∧ ∀ r ∈ rs, s.Armed i r
  | .readingDone slot ready done => ready i = true ∧ (i < slot → done i = true) ∧
    ∀ r ∈ rs, s.Armed i r
  | .judging now left dead => i ∈ dead ∨ (i ∈ left ∧ ∀ r ∈ rs, r = now ∨ s.Armed i r) ∨
    ∀ r ∈ rs, s.Armed i r
  | .poisoning left _ => i ∈ left ∨ ∀ r ∈ rs, s.Armed i r
  | .releasing _ => ∀ r ∈ rs, s.Armed i r

/-- The time of the tick, if it is read in this step. -/
def tickTime (cfg : Setup X Y) (s : Handshake X Y) : Option ℕ :=
  match s.watchdog with
  | .readingDone slot _ _ => if slot < cfg.numSlots then none else some s.clock
  | _ => none

theorem Tracks.judge {now slot : ℕ} {left dead : List ℕ} (h : s.Tracks i rs) (htimes : s.Times)
    (hwatchdog : s.watchdog = .judging now (slot :: left) dead) :
    (s.judge now slot left dead).Tracks i rs := by
  obtain ⟨hnow, hpast⟩ := htimes.judging now (slot :: left) dead hwatchdog
  unfold Tracks at h
  rw [hwatchdog] at h
  by_cases hslot : i = slot
  · subst hslot
    have hread : i ∈ dead ∨ ∀ r ∈ rs, r = now ∨ s.Armed i r :=
      h.imp_right fun h => h.elim And.right fun harmed r hr => .inr (harmed r hr)
    -- no suspect, or one whose service went on: the slot is armed anew
    have harm : (∀ suspect, s.suspects i = some suspect → s.flagServed i ≠ suspect.served) →
        Tracks { s.arm i now with watchdog := .judging now left dead } i rs := by
      intro hnew
      rcases hread with hdead | hread
      · exact .inl hdead
      · refine .inr (.inr fun r hr => ?_)
        rcases hread r hr with rfl | ⟨suspect, hsuspect, hserved, -⟩
        · exact ⟨_, Function.update_self .., rfl, Nat.le_refl r, Nat.lt_add_of_pos_right
            (by decide)⟩
        · exact absurd hserved.symm (hnew suspect hsuspect)
    unfold Handshake.judge
    split
    · next hnone => exact harm fun suspect heq => by rw [hnone] at heq; cases heq
    · next suspect hsuspect =>
      split
      · next hprogress =>
        refine harm fun suspect' heq => ?_
        cases hsuspect.symm.trans heq
        exact hprogress
      · next hsame =>
        split
        · exact .inl (mem_append.mpr (.inr (mem_singleton.mpr rfl)))
        · next hwait =>
          rcases hread with hdead | hread
          · exact .inl hdead
          · refine .inr (.inr fun r hr => ?_)
            rcases hread r hr with rfl | harmed
            · exact ⟨suspect, hsuspect, (not_not.mp hsame).symm, hpast i suspect hsuspect,
                not_le.mp hwait⟩
            · exact harmed
  · -- the judgement of another slot
    have hothers :
        ∀ {t : Handshake X Y} {dead' : List ℕ}, (∀ j ∈ dead, j ∈ dead') →
        t.suspects i = s.suspects i →
        t.flagServed = s.flagServed → t.watchdog = .judging now left dead' → t.Tracks i rs := by
      intro t dead' hsub hsuspects hserved heq
      have harmed : ∀ r, s.Armed i r → t.Armed i r := fun r ⟨suspect, hsuspect, hsame, htime⟩ =>
        ⟨suspect, hsuspects.trans hsuspect, hserved ▸ hsame, htime⟩
      unfold Tracks
      rw [heq]
      rcases h with hdead | ⟨hleft, hread⟩ | hread
      · exact .inl (hsub i hdead)
      · exact .inr
          (.inl ⟨(mem_cons.mp hleft).resolve_left hslot, fun r hr =>
          (hread r hr).imp_right (harmed r)⟩)
      · exact .inr (.inr fun r hr => harmed r (hread r hr))
    have hsame : ∀ j ∈ dead, j ∈ dead := fun _ hj => hj
    unfold Handshake.judge
    split
    · exact hothers hsame (update_of_ne hslot ..) rfl rfl
    · split
      · exact hothers hsame (update_of_ne hslot ..) rfl rfl
      · split
        · exact hothers (fun j hj => mem_append.mpr (.inl hj)) rfl rfl rfl
        · exact hothers hsame rfl rfl rfl

/-- Only the step after the samples reads the clock. -/
theorem append_tickTime (h : ∀ slot ready done, s.watchdog ≠ .readingDone slot ready done) :
    rs ++ (s.tickTime cfg).toList = rs := by
  unfold tickTime
  split
  · next slot ready done hwatchdog => exact absurd hwatchdog (h slot ready done)
  · exact append_nil rs

theorem Tracks.decide {ready done : ℕ → Bool} (hi : i < cfg.numSlots) (hready : ready i = true)
    (hdone : done i = true) (harmed : ∀ r ∈ rs, s.Armed i r) :
    (s.decide cfg ready done).Tracks i (rs ++ [s.clock]) := by
  have hpending : i ∈ (range cfg.numSlots).filter fun slot => ready slot && done slot :=
    mem_filter.mpr ⟨mem_range.mpr hi, by rw [hready, hdone]; rfl⟩
  unfold Handshake.decide
  rw [if_neg (ne_nil_of_mem hpending)]
  refine .inr (.inl ⟨cfg.mem_setOrder.mpr hpending, fun r hr => ?_⟩)
  rcases mem_append.mp hr with hr | hr
  · obtain ⟨suspect, hsuspect, hrest⟩ := harmed r hr
    exact .inr ⟨suspect, (if_pos hpending).trans hsuspect, hrest⟩
  · exact .inl (mem_singleton.mp hr)

/-- **A step of the watchdog, while a slot is stuck.** -/
theorem Tracks.watchdogStep (h : s.Tracks i rs) (haccused : s.Accused) (htimes : s.Times)
    (hi : i < cfg.numSlots) (hstuck : s.Stuck i) (herr : s.err i = 0) :
    (s.watchdogStep cfg).err i ≠ 0 ∨
    (s.watchdogStep cfg).Tracks i (rs ++ (s.tickTime cfg).toList) := by
  have htracks := h
  unfold Tracks at h
  unfold Handshake.watchdogStep
  -- the clock is read where the sample of the done flags ends: only there is a time appended
  split
  · next hwatchdog =>
    rw [hwatchdog] at h
    rw [append_tickTime fun _ _ _ heq => WatchdogPC.noConfusion (hwatchdog.symm.trans heq)]
    exact .inr ⟨fun hlt => absurd hlt (Nat.not_lt_zero i), h⟩
  · next slot ready hwatchdog =>
    rw [hwatchdog] at h
    rw [append_tickTime fun _ _ _ heq => WatchdogPC.noConfusion (hwatchdog.symm.trans heq)]
    split
    · refine .inr ⟨fun hlt => ?_, h.2⟩
      by_cases heq : i = slot
      · rw [heq, Function.update_self, decide_eq_true_eq, ← heq]
        exact hstuck.1
      · rw [update_of_ne heq]
        exact h.1 (by omega)
    · exact .inr ⟨h.1 (by omega), fun hlt => absurd hlt (Nat.not_lt_zero i), h.2⟩
  · next slot ready done hwatchdog =>
    rw [hwatchdog] at h
    unfold tickTime
    rw [hwatchdog]
    dsimp only
    split
    · rw [toList_none, append_nil]
      refine .inr ⟨h.1, fun hlt => ?_, h.2.2⟩
      by_cases heq : i = slot
      · rw [heq, Function.update_self, decide_eq_true_eq, ← heq]
        exact hstuck.2
      · rw [update_of_ne heq]
        exact h.2.1 (by omega)
    · -- all flags are read, and those of the stuck slot say that it rings and is not answered
      exact .inr (.decide hi h.1 (h.2.1 (by omega)) h.2.2)
  · next now slot left dead hwatchdog =>
    rw [append_tickTime fun _ _ _ heq => WatchdogPC.noConfusion (hwatchdog.symm.trans heq)]
    exact .inr (htracks.judge htimes hwatchdog)
  · next now dead hwatchdog =>
    rw [hwatchdog] at h
    rw [append_tickTime fun _ _ _ heq => WatchdogPC.noConfusion (hwatchdog.symm.trans heq)]
    have hread : i ∈ dead ∨ ∀ r ∈ rs, s.Armed i r :=
      h.imp_right fun h => h.resolve_left fun hleft => not_mem_nil hleft.1
    split
    · next hnil => exact .inr (hread.resolve_left (hnil ▸ not_mem_nil))
    · exact .inr hread
  · next slot left dead hwatchdog =>
    rw [hwatchdog] at h
    rw [append_tickTime fun _ _ _ heq => WatchdogPC.noConfusion (hwatchdog.symm.trans heq)]
    by_cases heq : i = slot
    · -- the slot itself is poisoned
      left
      show update s.err slot 1 i ≠ 0
      rw [heq, Function.update_self]
      exact Int.one_ne_zero
    · exact .inr (h.imp_left fun hmem => (mem_cons.mp hmem).resolve_left heq)
  · next dead hwatchdog =>
    rw [hwatchdog] at h
    rw [append_tickTime fun _ _ _ heq => WatchdogPC.noConfusion (hwatchdog.symm.trans heq)]
    exact .inr (h.resolve_left not_mem_nil)
  · next slot left hwatchdog =>
    rw [hwatchdog] at h
    rw [append_tickTime fun _ _ _ heq => WatchdogPC.noConfusion (hwatchdog.symm.trans heq)]
    unfold Accused at haccused
    rw [hwatchdog] at haccused
    have hne : i ≠ slot := fun heq => haccused slot mem_cons_self (heq ▸ herr)
    refine .inr fun r hr => ?_
    obtain ⟨suspect, hsuspect, hrest⟩ := h r hr
    exact ⟨suspect, (update_of_ne hne ..).trans hsuspect, hrest⟩
  · next hwatchdog =>
    rw [hwatchdog] at h
    rw [append_tickTime fun _ _ _ heq => WatchdogPC.noConfusion (hwatchdog.symm.trans heq)]
    exact .inr h

/-! ### A slot that the tick in progress condemns -/

def Overdue (s : Handshake X Y) (i now : ℕ) : Prop :=
  ∃ suspect, s.suspects i = some suspect ∧ suspect.served = s.flagServed i ∧
    suspect.firstSeen + kDeadline ≤ now

/-- The tick in progress has sampled the slot as ringing, and the ten seconds are over. -/
def Condemned (s : Handshake X Y) (i : ℕ) : Prop :=
  match s.watchdog with
  | .readingReady slot ready => i < slot ∧ ready i = true ∧ s.Overdue i s.clock
  | .readingDone slot ready done => ready i = true ∧ (i < slot → done i = true) ∧
    s.Overdue i s.clock
  | .judging now left dead => i ∈ dead ∨ i ∈ left ∧ s.Overdue i now
  | .poisoning left _ => i ∈ left
  | _ => False

theorem Condemned.judge {now slot : ℕ} {left dead : List ℕ}
    (h : i ∈ dead ∨ i ∈ slot :: left ∧ s.Overdue i now) :
    (s.judge now slot left dead).Condemned i ∧ (s.judge now slot left dead).done i = s.done i := by
  have hcases :
    i ∈ dead ∨ i ≠ slot ∧ i ∈ left ∧ s.Overdue i now ∨ i = slot ∧ s.Overdue slot now := by
    rcases h with hdead | ⟨hmem, hoverdue⟩
    · exact .inl hdead
    · by_cases heq : i = slot
      · exact .inr (.inr ⟨heq, heq ▸ hoverdue⟩)
      · exact .inr (.inl ⟨heq, (mem_cons.mp hmem).resolve_left heq, hoverdue⟩)
  -- the entry of another slot is left alone
  have harm : (¬ s.Overdue slot now) →
      Condemned { s.arm slot now with watchdog := .judging now left dead } i := fun hnot => by
    rcases hcases with hdead | ⟨hne, hleft, suspect, hsuspect, hrest⟩ | ⟨-, hoverdue⟩
    · exact .inl hdead
    · exact .inr ⟨hleft, suspect, (update_of_ne hne ..).trans hsuspect, hrest⟩
    · exact absurd hoverdue hnot
  unfold Handshake.judge
  split
  · next hnone =>
    refine ⟨harm fun ⟨suspect, hsuspect, _⟩ => ?_, rfl⟩
    rw [hnone] at hsuspect
    cases hsuspect
  · next suspect hsuspect =>
    split
    · next hprogress =>
      refine ⟨harm fun ⟨suspect', hsuspect', hserved, _⟩ => hprogress ?_, rfl⟩
      cases hsuspect.symm.trans hsuspect'
      exact hserved.symm
    · split
      · refine ⟨?_, rfl⟩
        rcases hcases with hdead | ⟨-, hrest⟩ | ⟨rfl, -⟩
        · exact .inl (mem_append.mpr (.inl hdead))
        · exact .inr hrest
        · exact .inl (mem_append.mpr (.inr (mem_singleton.mpr rfl)))
      · next hwait =>
        refine ⟨?_, rfl⟩
        rcases hcases with hdead | ⟨-, hrest⟩ | ⟨-, suspect', hsuspect', -, hdeadline⟩
        · exact .inl hdead
        · exact .inr hrest
        · cases hsuspect.symm.trans hsuspect'
          exact absurd hdeadline hwait

/-- The tick goes on, and the slot is poisoned before it is released. -/
theorem Condemned.watchdogStep (h : s.Condemned i) (hi : i < cfg.numSlots) (hdone : s.done i = 0) :
    (s.watchdogStep cfg).err i ≠ 0 ∨ (s.watchdogStep cfg).Condemned i ∧
    (s.watchdogStep cfg).done i = 0 := by
  -- the doorbell passes the two samples, stays suspected, and goes to the dead
  unfold Condemned at h
  unfold Handshake.watchdogStep
  split
  · next hwatchdog =>
    rw [hwatchdog] at h
    exact h.elim
  · next slot ready hwatchdog =>
    rw [hwatchdog] at h
    right
    split
    · exact ⟨⟨Nat.lt_succ_of_lt h.1, (update_of_ne h.1.ne ..).trans h.2.1, h.2.2⟩, hdone⟩
    · exact ⟨⟨h.2.1, fun hlt => absurd hlt (Nat.not_lt_zero i), h.2.2⟩, hdone⟩
  · next slot ready done hwatchdog =>
    rw [hwatchdog] at h
    right
    split
    · refine ⟨⟨h.1, fun hlt => ?_, h.2.2⟩, hdone⟩
      by_cases heq : i = slot
      · rw [← heq, Function.update_self]
        exact decide_eq_true hdone
      · rw [update_of_ne heq]
        exact h.2.1 (by omega)
    · next hslot =>
      -- both samples are complete: it is pending, and its suspicion is kept
      have hboth : (ready i && done i) = true := by
        rw [h.1, h.2.1 (by omega)]
        rfl
      have hpending : i ∈ (range cfg.numSlots).filter fun slot => ready slot && done slot :=
        mem_filter.mpr ⟨mem_range.mpr hi, hboth⟩
      obtain ⟨suspect, hsuspect, hrest⟩ := h.2.2
      unfold Handshake.decide
      rw [if_neg (ne_nil_of_mem hpending)]
      exact ⟨.inr ⟨cfg.mem_setOrder.mpr hpending, suspect, (if_pos hpending).trans hsuspect, hrest⟩,
        hdone⟩
  · next now slot left dead hwatchdog =>
    rw [hwatchdog] at h
    obtain ⟨hnext, hsame⟩ := Condemned.judge h
    exact .inr ⟨hnext, hsame.trans hdone⟩
  · next now dead hwatchdog =>
    rw [hwatchdog] at h
    have hdead := h.resolve_right fun hleft => not_mem_nil hleft.1
    rw [if_neg (ne_nil_of_mem hdead)]
    exact .inr ⟨hdead, hdone⟩
  · next slot left dead hwatchdog =>
    rw [hwatchdog] at h
    -- the flag is poisoned, in its turn
    by_cases heq : i = slot
    · left
      show update s.err slot 1 i ≠ 0
      rw [heq, Function.update_self]
      exact Int.one_ne_zero
    · exact .inr ⟨(mem_cons.mp h).resolve_left heq, hdone⟩
  · next dead hwatchdog =>
    rw [hwatchdog] at h
    exact absurd h not_mem_nil
  · next slot left hwatchdog =>
    rw [hwatchdog] at h
    exact h.elim
  · next hwatchdog =>
    rw [hwatchdog] at h
    exact h.elim

theorem Condemned.elapse (h : s.Condemned i) (duration : ℕ) :
    Condemned { s with clock := s.clock + duration } i := by
  have hlater : ∀ {now}, s.Overdue i now → s.Overdue i (now + duration) :=
    fun ⟨suspect, hsuspect, hserved, hdeadline⟩ =>
    ⟨suspect, hsuspect, hserved, hdeadline.trans (Nat.le_add_right _ _)⟩
  unfold Condemned at h ⊢
  dsimp only
  split at h
  · next heq =>
    rw [heq]
    exact ⟨h.1, h.2.1, hlater h.2.2⟩
  · next heq =>
    rw [heq]
    exact ⟨h.1, h.2.1, hlater h.2.2⟩
  · next heq =>
    rw [heq]
    exact h
  · exact h
  · exact h.elim

/-! ### Runs -/

def readTime (cfg : Setup X Y) (s : Handshake X Y) : Event X Y → Option ℕ
  | .watchdog => s.tickTime cfg
  | _ => none

def tickTimes (cfg : Setup X Y) : Handshake X Y → List (Event X Y) → List ℕ
  | _, [] => []
  | s, e :: es => (s.readTime cfg e).toList ++ ((s.step cfg e).map fun t => tickTimes cfg t es).getD
    []

theorem ticking_step (hticking : e.Ticking) (hstep : s.step cfg e = some s') :
    e = .watchdog ∧ s' = s.watchdogStep cfg ∨ ∃ duration, e = .elapse duration ∧
      s' = { s with clock := s.clock + duration } := by
  cases e with
  | watchdog => exact .inl ⟨rfl, (Option.some.inj hstep).symm⟩
  | elapse duration => exact .inr ⟨duration, rfl, (Option.some.inj hstep).symm⟩
  | register slot => exact hticking.elim
  | decode slot input => exact hticking.elim
  | stream => exact hticking.elim
  | coord => exact hticking.elim
  | workerTake worker => exact hticking.elim
  | workerWrite worker value => exact hticking.elim
  | workerDone worker value => exact hticking.elim
  | stop => exact hticking.elim

end Handshake

open Transition

variable {s s' : Handshake X Y} {i : ℕ} {x : ℕ → X} {y : ℕ → Y} {es fs : List (Event X Y)}
  {rs : List ℕ}

theorem stuck_run (hinv : s.Inv cfg) (hticking : ∀ e ∈ fs, e.Ticking)
    (hrun : run (Handshake.step cfg) s fs = some s')
    (h : s.err i ≠ 0 ∨ s.Stuck i) : s'.err i ≠ 0 ∨ s'.Stuck i := by
  induction fs generalizing s with
  | nil =>
    cases hrun
    exact h
  | cons e fs ih =>
    obtain ⟨t, hstep, hrest⟩ := run_cons_eq_some.mp hrun
    refine ih (Handshake.step_inv hinv hstep) (fun e he => hticking e (mem_cons_of_mem _ he)) hrest
      ?_
    rcases Handshake.ticking_step (hticking e mem_cons_self) hstep with ⟨-, rfl⟩ |
      ⟨duration, -, rfl⟩
    · by_cases herr : s.err i = 0
      · exact .inr ((h.resolve_left (not_not.mpr herr)).watchdogStep hinv.accused herr)
      · exact .inl (Handshake.err_watchdogStep herr)
    · exact h

theorem condemned_run (hi : i < cfg.numSlots) (hticking : ∀ e ∈ fs, e.Ticking)
    (hrun : run (Handshake.step cfg) s fs = some s')
    (h : s.err i ≠ 0 ∨ s.Condemned i ∧ s.done i = 0) :
    s'.err i ≠ 0 ∨ s'.Condemned i ∧ s'.done i = 0 := by
  induction fs generalizing s with
  | nil =>
    cases hrun
    exact h
  | cons e fs ih =>
    obtain ⟨t, hstep, hrest⟩ := run_cons_eq_some.mp hrun
    refine ih (fun e he => hticking e (mem_cons_of_mem _ he)) hrest ?_
    rcases Handshake.ticking_step (hticking e mem_cons_self) hstep with ⟨-, rfl⟩ |
      ⟨duration, -, rfl⟩
    · exact h.elim (fun herr => .inl (Handshake.err_watchdogStep herr)) fun ⟨hcondemned, hdone⟩ =>
        hcondemned.watchdogStep hi hdone
    · exact h.imp_right fun ⟨hcondemned, hdone⟩ => ⟨hcondemned.elapse duration, hdone⟩

theorem tracks_run (hinv : s.Inv cfg) (htimes : s.Times) (hi : i < cfg.numSlots)
    (hticking : ∀ e ∈ fs, e.Ticking)
    (hrun : run (Handshake.step cfg) s fs = some s') (h : s.err i ≠ 0 ∨ s.Stuck i ∧ s.Tracks i rs) :
    s'.err i ≠ 0 ∨ s'.Stuck i ∧ s'.Tracks i (rs ++ s.tickTimes cfg fs) := by
  induction fs generalizing s rs with
  | nil =>
    cases hrun
    rw [Handshake.tickTimes, append_nil]
    exact h
  | cons e fs ih =>
    obtain ⟨t, hstep, hrest⟩ := run_cons_eq_some.mp hrun
    rw [Handshake.tickTimes, hstep, map_some, getD_some, ← append_assoc]
    refine ih (Handshake.step_inv hinv hstep) (htimes.step hstep)
      (fun e he => hticking e (mem_cons_of_mem _ he)) hrest ?_
    rcases Handshake.ticking_step (hticking e mem_cons_self) hstep with ⟨rfl, rfl⟩ |
      ⟨duration, rfl, rfl⟩
    · by_cases herr : s.err i = 0
      · obtain ⟨hstuck, htracks⟩ := h.resolve_left (not_not.mpr herr)
        exact (htracks.watchdogStep hinv.accused htimes hi hstuck herr).imp_right fun hnext =>
          ⟨hstuck.watchdogStep hinv.accused herr, hnext⟩
      · exact .inl (Handshake.err_watchdogStep herr)
    · have hsame : rs ++ (s.readTime cfg (.elapse duration)).toList = rs := append_nil rs
      rw [hsame]
      exact h

/-- The events hold whole ticks, whose times are ten seconds apart. -/
def Covers (cfg : Setup X Y) (s : Handshake X Y) (fs : List (Event X Y)) : Prop :=
  ∃ fs₁ fs₂ t, fs = fs₁ ++ fs₂ ∧ run (Handshake.step cfg) s fs₁ = some t ∧ t.watchdog = .sleeping ∧
    ∃ r₁ ∈ t.tickTimes cfg fs₂, ∃ r₂ ∈ t.tickTimes cfg fs₂, r₁ + kDeadline ≤ r₂

theorem Covers.of_sleeping (h : s.watchdog = .sleeping) {r₁ r₂ : ℕ}
    (htimes : s.tickTimes cfg fs = [r₁, r₂]) (hapart : r₁ + kDeadline ≤ r₂) : Covers cfg s fs := by
  refine ⟨[], fs, s, rfl, rfl, h, r₁, ?_, r₂, ?_, hapart⟩ <;> rw [htimes]
  · exact mem_cons_self
  · exact mem_cons_of_mem _ mem_cons_self

/-- **A slot that is stuck is poisoned** by the end of a tick, ten seconds after the first whole
one. -/
theorem stuck_detected (hinv : s.Inv cfg) (htimes : s.Times) (hi : i < cfg.numSlots)
    (hstuck : s.Stuck i)
    (hticking : ∀ e ∈ fs, e.Ticking) (hrun : run (Handshake.step cfg) s fs = some s')
    (hcovers : Covers cfg s fs) (hsleeping : s'.watchdog = .sleeping) : s'.err i ≠ 0 := by
  obtain ⟨fs₁, fs₂, t, rfl, hfirst, hwatchdog, r₁, hr₁, r₂, hr₂, hapart⟩ := hcovers
  rw [run_append, hfirst, bind_some] at hrun
  have hmid :=
    stuck_run hinv (fun e he => hticking e (mem_append.mpr (.inl he))) hfirst (.inr hstuck)
  have htracks : t.Tracks i [] := by
    unfold Handshake.Tracks
    rw [hwatchdog]
    exact fun r hr => absurd hr not_mem_nil
  have hend := tracks_run (run_keeps Handshake.step_inv hinv hfirst)
    (run_keeps Handshake.Times.step htimes hfirst) hi
    (fun e he => hticking e (mem_append.mpr (.inr he))) hrun
      (hmid.imp_right fun hstuck => ⟨hstuck, htracks⟩)
  refine hend.resolve_right fun ⟨_, hall⟩ => ?_
  unfold Handshake.Tracks at hall
  rw [hsleeping, nil_append] at hall
  -- the entry of the slot is as old as the first time, and the second is not ten seconds later
  obtain ⟨suspect, hsuspect, -, hle, -⟩ := hall r₁ hr₁
  obtain ⟨suspect', hsuspect', -, -, hlt⟩ := hall r₂ hr₂
  cases hsuspect.symm.trans hsuspect'
  omega

/-- **The watchdog accuses the dead.**

In a run in order, a slot is poisoned only if one doorbell on it has stayed unanswered since the
slot was first suspected, ten seconds ago.  And from every state of any run in which the stream
waits at a slot whose doorbell is still set, or which the tick in progress condemns, once the
coordinator takes no further step, ticks that cover ten seconds poison the slot, and `done` is not
set before `err`. -/
theorem watchdog_accuses_dead (hrun : run (Handshake.step cfg) { x, y } es = some s) :
    (Meets (Handshake.step cfg) Handshake.InOrder { x, y } es → ∀ i left dead, s.watchdog =
      .poisoning (i :: left) dead →
      ∃ suspect t, s.suspects i = some suspect ∧ Visits (Handshake.step cfg) { x, y } es t ∧
        t.clock = suspect.firstSeen ∧ suspect.firstSeen + kDeadline ≤ s.clock ∧
        t.rung i = s.rung i ∧ t.answered i = s.answered i ∧ s.answered i < s.rung i) ∧
    ∀ i, s.Waits i → s.ready i ≠ 0 ∨ s.Condemned i → ∀ fs s', (∀ e ∈ fs, e.Ticking) →
      run (Handshake.step cfg) s fs = some s' →
      (1 ≤ s'.done i → s'.err i ≠ 0) ∧
      (s'.watchdog = .sleeping → Covers cfg s fs → s'.err i ≠ 0) := by
  refine ⟨fun horder i left dead hpoisoning => poisoned_unanswered horder hrun hpoisoning,
    fun i hwaits hseen fs s' hticking hcont => ?_⟩
  have hinv := run_inv hrun
  have htimes : s.Times := run_keeps Handshake.Times.step (Handshake.init_times x y) hrun
  obtain ⟨⟨input, hrung⟩, hdone⟩ := hwaits
  have hslot := (hinv.inputs i input (by unfold Handshake.current; rw [hrung])).2.1
  have hbit : s.FlagValues :=
    run_keeps Handshake.FlagValues.step (Handshake.init_flagValues x y) hrun
  have hnonneg := hbit.done i
  have hzero : s.done i = 0 := by omega
  -- either the doorbell still rings, or the tick under way has sampled it
  rcases hseen with hready | hcondemned
  · have hstuck : s.Stuck i := ⟨(hbit.ready i).resolve_left hready, hzero⟩
    refine ⟨fun hdone' => ?_, fun hsleeping hcovers => stuck_detected hinv htimes hslot hstuck
      hticking hcont hcovers hsleeping⟩
    refine (stuck_run hinv hticking hcont (.inr hstuck)).resolve_right fun hstuck' => ?_
    have hzero' := hstuck'.2
    omega
  · have hend := condemned_run hslot hticking hcont (.inr ⟨hcondemned, hzero⟩)
    refine ⟨fun hdone' => hend.resolve_right fun hstill => ?_, fun hsleeping _ =>
      hend.resolve_right fun hstill => ?_⟩
    · have hzero' := hstill.2
      omega
    · have hnone := hstill.1
      unfold Handshake.Condemned at hnone
      rw [hsleeping] at hnone
      exact hnone

def ringSlot : List (Event ℕ ℕ) := [.register 1, .decode 1 5, .stream, .stream]

/-- Two ticks, up to the verdict of the second one. -/
def tenSeconds : List (Event ℕ ℕ) :=
  List.flatten [replicate 9 .watchdog, [.elapse kDeadline], replicate 9 .watchdog]

theorem tenSeconds_ticking (n : ℕ) :
    ∀ e ∈ tenSeconds ++ replicate n .watchdog, e = .watchdog ∨ e = .elapse kDeadline := by
  intro e he
  simp only [tenSeconds, mem_append, mem_flatten, mem_cons, mem_replicate] at he
  aesop

theorem ringSlot_inOrder :
    Meets (Handshake.step twoSlots) Handshake.InOrder { x := fun _ => 0, y := fun _ => 0 }
    (ringSlot ++ tenSeconds) := by
  refine .cons trivial rfl
    (.cons trivial rfl (.cons (fun _ _ h => by cases h) rfl (.cons (fun _ _ h => ?_) rfl ?_)))
  · cases h
    exact ⟨rfl, fun h => by cases h⟩
  · -- only the steps that sample `done` have a condition
    iterate 4 refine .cons (fun _ _ _ h => by cases h) rfl ?_
    iterate 3 refine .cons (fun _ _ _ h hready _ => by cases h; revert hready; decide) rfl ?_
    iterate 2 refine .cons (fun _ _ _ h => by cases h) rfl ?_
    refine .cons trivial rfl ?_
    iterate 4 refine .cons (fun _ _ _ h => by cases h) rfl ?_
    iterate 3 refine .cons (fun _ _ _ h hready _ => by cases h; revert hready; decide) rfl ?_
    iterate 2 refine .cons (fun _ _ _ h => by cases h) rfl ?_
    trivial

/-- The slot is poisoned for its first doorbell. -/
theorem watchdog_accuses_dead_slot :
    (∃ s t : Handshake ℕ ℕ,
      run (Handshake.step twoSlots) { x := fun _ => 0, y := fun _ => 0 } (ringSlot ++ tenSeconds) =
        some s ∧
        t.clock + kDeadline ≤ s.clock ∧ t.rung 1 = s.rung 1 ∧ s.answered 1 < s.rung 1) ∧
    ∃ s s', run (Handshake.step twoSlots) { x := fun _ => 0, y := fun _ => 0 } ringSlot = some s ∧
      s.Waits 1 ∧
      run (Handshake.step twoSlots) s (tenSeconds ++ replicate 4 .watchdog) = some s' ∧
        s'.err 1 ≠ 0 := by
  constructor
  · have hrun :
      ∃ s, run (Handshake.step twoSlots) { x := fun _ => 0, y := fun _ => 0 }
      (ringSlot ++ tenSeconds) = some s ∧
        s.watchdog = .poisoning [1] [1] := ⟨_, rfl, rfl⟩
    obtain ⟨s, hrun, hpoisoning⟩ := hrun
    obtain ⟨suspect, t, -, -, hclock, hdeadline, hrung, -, hlt⟩ :=
      (watchdog_accuses_dead hrun).1 ringSlot_inOrder 1 [] [1] hpoisoning
    exact ⟨s, t, hrun, hclock ▸ hdeadline, hrung, hlt⟩
  · have hrun :
      ∃ s s', run (Handshake.step twoSlots) { x := fun _ => 0, y := fun _ => 0 } ringSlot = some s ∧
        (s.stream = .rung 1 5 ∧ s.done 1 < 1) ∧ s.ready 1 = 1 ∧
        run (Handshake.step twoSlots) s (tenSeconds ++ replicate 4 .watchdog) = some s' ∧
          s'.watchdog = .sleeping ∧
        s.watchdog = .sleeping ∧ s.tickTimes twoSlots (tenSeconds ++ replicate 4 .watchdog) =
          [0, kDeadline] :=
      ⟨_, _, rfl, ⟨rfl, Int.zero_lt_one⟩, rfl, rfl, rfl, rfl, rfl⟩
    obtain ⟨s, s', hrun, ⟨hrung, hdone⟩, hready, hcont, hsleeping, hstart, htimes⟩ := hrun
    have hwaits : s.Waits 1 := ⟨⟨5, hrung⟩, hdone⟩
    refine ⟨s, s', hrun, hwaits, hcont,
      ((watchdog_accuses_dead hrun).2 1 hwaits (.inl (by rw [hready]; exact Int.one_ne_zero)) _ s'
      (fun e he => ?_) hcont).2 hsleeping (.of_sleeping hstart htimes (Nat.zero_add _).le)⟩
    rcases tenSeconds_ticking 4 e he with rfl | rfl <;> trivial

/-- The coordinator takes the doorbell of slot 0, and no further step. -/
def takenSlot : List (Event ℕ ℕ) :=
  [.register 0, .decode 0 7, .stream, .stream, .coord, .coord, .coord]

/-- A doorbell that was taken, and is never answered, is seen by no tick. -/
theorem not_watchdog_accuses_dead :
    ¬ ∀ (X Y : Type) (cfg : Setup X Y) (x : ℕ → X) (y : ℕ → Y) (es : List (Event X Y))
      (s : Handshake X Y),
      run (Handshake.step cfg) { x, y } es = some s → ∀ i, s.Waits i →
        ∀ fs s', (∀ e ∈ fs, e.Ticking) →
        run (Handshake.step cfg) s fs = some s' → s'.watchdog = .sleeping → Covers cfg s fs →
          s'.err i ≠ 0 := by
  intro hall
  have hrun :
    ∃ s s', run (Handshake.step twoSlots) { x := fun _ => 0, y := fun _ => 0 } takenSlot = some s ∧
      (s.stream = .rung 0 7 ∧ s.done 0 < 1) ∧
      run (Handshake.step twoSlots) s
        (replicate 7 .watchdog ++ .elapse kDeadline :: replicate 7 .watchdog) =
        some s' ∧ s'.watchdog = .sleeping ∧ s'.err 0 = 0 ∧ s.watchdog = .sleeping ∧
      s.tickTimes twoSlots (replicate 7 .watchdog ++ .elapse kDeadline :: replicate 7 .watchdog) =
        [0, kDeadline] :=
    ⟨_, _, rfl, ⟨rfl, Int.zero_lt_one⟩, rfl, rfl, rfl, rfl, rfl⟩
  obtain ⟨s, s', hrun, ⟨hrung, hdone⟩, hcont, hsleeping, herr, hstart, htimes⟩ := hrun
  refine hall ℕ ℕ twoSlots _ _ takenSlot s hrun 0 ⟨⟨7, hrung⟩, hdone⟩ _ s' (fun e he => ?_) hcont
    hsleeping (.of_sleeping hstart htimes (Nat.zero_add _).le) herr
  simp only [mem_append, mem_cons, mem_replicate] at he
  rcases he with ⟨-, rfl⟩ | rfl | ⟨-, rfl⟩ <;> trivial

/-- The doorbell of slot 0 is answered between the samples of a tick and its look at the count.  Ten
seconds later the slot rings again, and is sampled at once. -/
def answeredMeanwhile : List (Event ℕ ℕ) :=
  List.flatten [[.register 0, .decode 0 7, .stream, .stream], replicate 7 .watchdog,
    replicate 4 .coord,
    [.workerTake 0, .workerDone 0 0], replicate 3 .coord, [.stream, .stream], replicate 2 .watchdog,
    [.elapse kDeadline, .decode 0 8, .stream, .stream], replicate 9 .watchdog]

/-- Out of order, a slot is poisoned for a doorbell that has just been rung. -/
theorem poisoned_early : ∃ s,
    run (Handshake.step twoSlots) { x := fun _ => 0, y := fun _ => 0 } answeredMeanwhile = some s ∧
      s.watchdog = .poisoning [0] [0] ∧ ∀ n, n ≤ answeredMeanwhile.length →
        ∀ t, run (Handshake.step twoSlots) { x := fun _ => 0, y := fun _ => 0 }
          (answeredMeanwhile.take n) = some t →
          t.clock + kDeadline ≤ s.clock → t.rung 0 ≠ s.rung 0 := by
  refine ⟨_, rfl, rfl, fun n hn t ht => ?_⟩
  have hall : ∀ n ≤ answeredMeanwhile.length,
      ((run (Handshake.step twoSlots) { x := fun _ => 0, y := fun _ => 0 }
        (answeredMeanwhile.take n)).map
        fun t => decide (t.clock + kDeadline ≤ kDeadline → t.rung 0 ≠ 2)) =
          some true := by decide +kernel
  have h := hall n hn
  rw [ht] at h
  exact of_decide_eq_true (Option.some.inj h)

end FlagSync

end FreeToken
