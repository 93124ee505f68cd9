import FreeToken.Lib.Transition
import FreeToken.Moe.FlagSync
import Mathlib.Data.Finset.Card

/-!
# Each decode step gets its own output

`SlotInv` is what holds of a slot that the watchdog has not poisoned, while the coordinator is not
stopped: its doorbell rings, or is being served, exactly while the stream waits at the slot.

* `step_inv`: every step keeps the invariant.
* `flag_handshake`: what the stream finds when its wait is over.
-/

namespace FreeToken

open Function

variable {slot worker i : ℕ}

namespace FlagSync

variable {X Y : Type} {cfg : Setup X Y}

/-! ### The pool -/

structure Pool.Idle (p : Pool X) (numThreads : ℕ) : Prop where
  completed_le : p.completed ≤ p.curGen
  idle : ∀ w, (p.workers w).running = none
  seen : ∀ w < numThreads, (p.workers w).myGen = p.curGen

/-- The workers that have run the current task. -/
def Pool.finished (p : Pool X) (numThreads : ℕ) : Finset ℕ :=
  (Finset.range numThreads).filter fun w => (p.workers w).running = none ∧
    (p.workers w).myGen = p.curGen

structure Pool.Running (p : Pool X) (numThreads slot : ℕ) : Prop where
  task_eq : p.curTask = slot
  completed_le : p.completed ≤ p.curGen
  worker : ∀ w, (p.workers w).running = none ∨
    (p.workers w).running = some slot ∧ (p.workers w).myGen = p.curGen ∧ w < numThreads
  count : p.doneCount = (p.finished numThreads).card
  all_done : p.completed = p.curGen → p.doneCount = numThreads

variable {p : Pool X} {n slot w : ℕ}

/-- Where all workers have finished, the pool is idle. -/
theorem Pool.Running.toIdle (h : p.Running n slot) (hcompleted : p.completed = p.curGen) :
    p.Idle n := by
  have hcard : (p.finished n).card = (Finset.range n).card := by
    rw [← h.count, h.all_done hcompleted, Finset.card_range]
  have hall := Finset.filter_card_eq hcard
  refine ⟨h.completed_le, fun w => ?_, fun w hw => (hall w (Finset.mem_range.mpr hw)).2⟩
  rcases h.worker w with hidle | ⟨-, -, hw⟩
  · exact hidle
  · exact (hall w (Finset.mem_range.mpr hw)).1

theorem Pool.Idle.submit (h : p.Idle n) (slot : ℕ) (input : Option X) :
    Pool.Running { p with
      curGen := p.curGen + 1
      submitted := p.curGen + 1
      doneCount := 0
      curTask := slot
      input } n slot where
  task_eq := rfl
  completed_le := Nat.le_succ_of_le h.completed_le
  worker w := .inl (h.idle w)
  count := by
    symm
    rw [Finset.card_eq_zero, Pool.finished, Finset.filter_eq_empty_iff]
    rintro w hw ⟨-, hgen⟩
    have hseen := h.seen w (Finset.mem_range.mp hw)
    change (p.workers w).myGen = p.curGen + 1 at hgen
    omega
  all_done hcompleted := by
    have hle := h.completed_le
    change p.completed = p.curGen + 1 at hcompleted
    omega

theorem Pool.Running.take (h : p.Running n slot) (hw : w < n)
    (hgen : (p.workers w).myGen ≠ p.curGen) :
    Pool.Running { p with
      workers := update p.workers w { myGen := p.curGen, running := some p.curTask } } n slot where
  task_eq := h.task_eq
  completed_le := h.completed_le
  worker v := by
    dsimp only
    by_cases hv : v = w
    · rw [hv, update_self]
      exact .inr ⟨congrArg some h.task_eq, rfl, hw⟩
    · rw [update_of_ne hv]
      exact h.worker v
  count := by
    refine h.count.trans (congrArg Finset.card (Finset.filter_congr fun v _ => ?_))
    dsimp only
    by_cases hv : v = w
    · rw [hv, update_self]
      exact ⟨fun hfin => absurd hfin.2 hgen, fun hfin => Option.noConfusion rfl (heq_of_eq hfin.1)⟩
    · rw [update_of_ne hv]
  all_done := h.all_done

theorem Pool.Running.finish (h : p.Running n slot) (hw : (p.workers w).running = some slot)
    {completed : ℕ} (hcompleted : completed = p.completed ∧ p.doneCount + 1 ≠ n ∨
      completed = (p.workers w).myGen ∧ p.doneCount + 1 = n) :
    Pool.Running { p with
      workers := update p.workers w { p.workers w with running := none }
      doneCount := p.doneCount + 1
      completed } n slot := by
  obtain hidle | ⟨-, hgen, hlt⟩ := h.worker w
  · rw [hidle] at hw
    cases hw
  -- the worker was not among those that have finished
  have hnot : w ∉ p.finished n := fun hmem => by
    have hidle := (Finset.mem_filter.mp hmem).2.1
    rw [hidle] at hw
    cases hw
  have hcard : (insert w (p.finished n)).card = p.doneCount + 1 := by
    rw [Finset.card_insert_of_notMem hnot, h.count]
  have hle : p.doneCount + 1 ≤ n := by
    rw [← hcard]
    refine (Finset.card_le_card fun v hv => ?_).trans_eq (Finset.card_range n)
    rcases Finset.mem_insert.mp hv with rfl | hv
    · exact Finset.mem_range.mpr hlt
    · exact (Finset.mem_filter.mp hv).1
  refine ⟨h.task_eq, ?_, fun v => ?_, ?_, fun heq => ?_⟩
  · rcases hcompleted with ⟨rfl, -⟩ | ⟨rfl, -⟩
    · exact h.completed_le
    · exact hgen.le
  · dsimp only
    by_cases hv : v = w
    · rw [hv, update_self]
      exact .inl rfl
    · rw [update_of_ne hv]
      exact h.worker v
  · refine hcard.symm.trans (congrArg Finset.card (Finset.ext fun v => ?_))
    simp only [Pool.finished, Finset.mem_insert, Finset.mem_filter]
    by_cases hv : v = w
    · subst hv
      rw [update_self]
      exact ⟨fun _ => ⟨Finset.mem_range.mpr hlt, rfl, hgen⟩, fun _ => .inl rfl⟩
    · rw [update_of_ne hv]
      exact ⟨fun hmem => hmem.resolve_left hv, .inr⟩
  · rcases hcompleted with ⟨hsame, -⟩ | ⟨-, hlast⟩
    · change completed = p.curGen at heq
      have hfull := h.all_done (hsame.symm.trans heq)
      omega
    · exact hlast

namespace Handshake

variable {s s' : Handshake X Y} {i : ℕ} {input : X}

/-! ### The invariant -/

/-- The decode step that the stream is in. -/
def current (s : Handshake X Y) : Option (ℕ × X) :=
  match s.stream with
  | .idle => none
  | .copied slot input | .cleared slot input | .rung slot input | .passed slot input =>
    some (slot, input)

/-- What holds of a slot that is not poisoned, while the coordinator is not stopped. -/
structure SlotInv (cfg : Setup X Y) (s : Handshake X Y) (i : ℕ) : Prop where
  ringing : s.ready i ≠ 0 → s.Waits i ∧ s.serving ≠ some i
  served : s.serving = some i → s.Waits i ∧ s.ready i = 0
  kept : s.Waits i → s.ready i ≠ 0 ∨ s.serving = some i
  seen : s.coord = .consuming i → s.ready i ≠ 0
  cleared : ∀ input, s.stream = .cleared i input → s.done i < 1
  pending : s.Waits i → s.rung i = s.answered i + 1
  counted : ¬ s.Waits i → s.rung i = s.answered i
  -- the task runs on the input of the decode step, and its result stays
  intact : ∀ input target, s.stream = .rung i input → s.coord = .syncing i target →
    s.pool.input = some input
  computed : ∀ input target, s.stream = .rung i input → s.coord = .syncing i target →
    target ≤ s.pool.completed →
    s.y (cfg.batch i) = cfg.task i input
  written : ∀ input, s.stream = .rung i input → s.coord = .finished i → s.y (cfg.batch i) =
    cfg.task i input

/-- The wait of the stream at the slot is over. -/
def Over (s : Handshake X Y) (i : ℕ) (input : X) : Prop :=
  s.stream = .rung i input ∧ 1 ≤ s.done i ∨ s.stream = .passed i input

/-- The slots that the watchdog is about to poison or has poisoned. -/
def Accused (s : Handshake X Y) : Prop :=
  match s.watchdog with
  | .poisoning left dead => ∀ i ∈ dead, i ∈ left ∨ s.err i ≠ 0
  | .releasing left => ∀ i ∈ left, s.err i ≠ 0
  | _ => True

def PoolInv (cfg : Setup X Y) (s : Handshake X Y) : Prop :=
  match s.coord with
  | .syncing slot target => target = s.pool.curGen ∧ s.pool.Running cfg.numThreads slot
  | _ => s.pool.Idle cfg.numThreads

/-- What holds in every state that is reached. -/
structure Inv (cfg : Setup X Y) (s : Handshake X Y) : Prop where
  pool : s.PoolInv cfg
  inputs : ∀ i input, s.current = some (i, input) →
    s.x (cfg.batch i) = input ∧ i < cfg.numSlots ∧ s.registered i = true
  accused : s.Accused
  stopped : (∃ i, s.coord = .tearing i) ∨ s.coord = .exited → s.coordStop = true
  slots : s.coordStop = false → ∀ i, s.err i = 0 → SlotInv cfg s i
  results : s.coordStop = false → ∀ i input, s.Over i input →
    (∀ j, cfg.batch j = cfg.batch i → s.err j = 0) →
    s.y (cfg.batch i) = cfg.task i input

/-- The parts of the state that the invariant of a slot sees. -/
theorem SlotInv.frame (h : SlotInv cfg s i) (hstream : s'.stream = s.stream)
    (hcoord : s'.coord = s.coord)
    (hready : s'.ready i = s.ready i) (hdone : s'.done i = s.done i) (hrung : s'.rung i = s.rung i)
    (hanswered : s'.answered i = s.answered i)
    (hpool : ∀ target, s.coord = .syncing i target → s'.pool.input = s.pool.input ∧
      (target ≤ s'.pool.completed → s.stream = s'.stream → ∀ input, s.stream = .rung i input →
        s'.y (cfg.batch i) = cfg.task i input))
    (hy : s.coord = .finished i → s'.y (cfg.batch i) = s.y (cfg.batch i)) : SlotInv cfg s' i := by
  have hwaits : s'.Waits i ↔ s.Waits i := by
    unfold Waits
    rw [hstream, hdone]
  have hserving : s'.serving = s.serving := by
    unfold serving
    rw [hcoord]
  constructor
  · rw [hready, hwaits, hserving]
    exact h.ringing
  · rw [hready, hwaits, hserving]
    exact h.served
  · rw [hready, hwaits, hserving]
    exact h.kept
  · rw [hready, hcoord]
    exact h.seen
  · rw [hstream, hdone]
    exact h.cleared
  · rw [hwaits, hrung, hanswered]
    exact h.pending
  · rw [hwaits, hrung, hanswered]
    exact h.counted
  · intro input target hs hc
    rw [hstream] at hs
    rw [hcoord] at hc
    rw [(hpool target hc).1]
    exact h.intact input target hs hc
  · intro input target hs hc hle
    rw [hstream] at hs
    rw [hcoord] at hc
    exact (hpool target hc).2 hle hstream.symm input hs
  · intro input hs hc
    rw [hstream] at hs
    rw [hcoord] at hc
    rw [hy hc]
    exact h.written input hs hc

theorem SlotInv.at_rest (h : SlotInv cfg s i) (hnot : ¬ s.Waits i) :
    s.ready i = 0 ∧ s.serving ≠ some i ∧ s.coord ≠ .consuming i ∧ s.rung i = s.answered i := by
  have hready : s.ready i = 0 := by
    by_contra hne
    exact hnot (h.ringing hne).1
  exact ⟨hready, fun heq => hnot (h.served heq).1, fun heq => h.seen heq hready, h.counted hnot⟩

theorem SlotInv.of_rest (hnot : ¬ s.Waits i) (hrest : s.ready i = 0 ∧ s.serving ≠ some i ∧
      s.coord ≠ .consuming i ∧
    s.rung i = s.answered i) (hcleared : ∀ input, s.stream = .cleared i input →
      s.done i < 1) : SlotInv cfg s i := by
  obtain ⟨hready, hserving, hconsuming, hcount⟩ := hrest
  have hsyncing : ∀ target, s.coord ≠ .syncing i target :=
    fun target heq => hserving (by unfold serving; rw [heq])
  have hfinished : s.coord ≠ .finished i := fun heq => hserving (by unfold serving; rw [heq])
  exact ⟨fun hne => absurd hready hne, fun heq => absurd heq hserving, fun hw =>
    absurd hw hnot, fun heq => absurd heq hconsuming, hcleared, fun hw => absurd hw hnot, fun _ =>
    hcount, fun _ target _ heq => absurd heq (hsyncing target), fun _ target _ heq =>
    absurd heq (hsyncing target), fun _ _ heq => absurd heq hfinished⟩

theorem SlotInv.elsewhere (h : SlotInv cfg s i) (hstream : s'.stream = s.stream)
    (hready : s'.ready i = s.ready i)
    (hdone : s'.done i = s.done i) (hrung : s'.rung i = s.rung i)
    (hanswered : s'.answered i = s.answered i)
    (hserving : s.serving ≠ some i) (hserving' : s'.serving ≠ some i)
    (hseen : s'.coord = .consuming i → s.ready i ≠ 0) : SlotInv cfg s' i := by
  have hwaits : s'.Waits i ↔ s.Waits i := by
    unfold Waits
    rw [hstream, hdone]
  have hsyncing : ∀ target, s'.coord ≠ .syncing i target :=
    fun target heq => hserving' (by unfold serving; rw [heq])
  have hfinished : s'.coord ≠ .finished i := fun heq => hserving' (by unfold serving; rw [heq])
  constructor
  · rw [hready, hwaits]
    exact fun hne => ⟨(h.ringing hne).1, hserving'⟩
  · exact fun heq => absurd heq hserving'
  · rw [hready, hwaits]
    exact fun hw => .inl ((h.kept hw).resolve_right hserving)
  · rw [hready]
    exact hseen
  · rw [hstream, hdone]
    exact h.cleared
  · rw [hwaits, hrung, hanswered]
    exact h.pending
  · rw [hwaits, hrung, hanswered]
    exact h.counted
  · exact fun _ target _ heq => absurd heq (hsyncing target)
  · exact fun _ target _ heq => absurd heq (hsyncing target)
  · exact fun _ _ heq => absurd heq hfinished

/-! ### The watchdog -/

theorem Inv.of_watchdog (h : s.Inv cfg) (watchdog : WatchdogPC) (suspects : ℕ → Option Suspect)
    (haccused : Accused { s with watchdog, suspects }) :
    Handshake.Inv cfg { s with watchdog, suspects } where
  pool := h.pool
  inputs := h.inputs
  accused := haccused
  stopped := h.stopped
  slots hstop i herr := by
    have hi := h.slots hstop i herr
    exact hi.frame rfl rfl rfl rfl rfl rfl
      (fun target hc => ⟨rfl, fun hle _ input hs => hi.computed input target hs hc hle⟩) fun _ =>
      rfl
  results := h.results

theorem Inv.poison (h : s.Inv cfg) {left dead : List ℕ}
    (hwatchdog : s.watchdog = .poisoning (slot :: left) dead) :
    Handshake.Inv cfg { s with watchdog := .poisoning left dead, err := update s.err slot 1 } := by
  have herr : ∀ j, update s.err slot 1 j = 0 → s.err j = 0 := fun j hj => by
    by_cases heq : j = slot
    · rw [heq, update_self] at hj
      omega
    · rwa [update_of_ne heq] at hj
  refine ⟨h.pool, h.inputs, ?_, h.stopped, fun hstop i hi => ?_, fun hstop i input hover hclean =>
    ?_⟩
  · intro i hi
    show i ∈ left ∨ update s.err slot 1 i ≠ 0
    by_cases heq : i = slot
    · rw [heq, update_self]
      exact .inr one_ne_zero
    · rw [update_of_ne heq]
      have haccused := h.accused
      unfold Accused at haccused
      rw [hwatchdog] at haccused
      exact (haccused i hi).imp_left fun hmem => (List.mem_cons.mp hmem).resolve_left heq
  · have hslot := h.slots hstop i (herr i hi)
    exact hslot.frame rfl rfl rfl rfl rfl rfl
      (fun target hc => ⟨rfl, fun hle _ input hs => hslot.computed input target hs hc hle⟩) fun _ =>
      rfl
  · exact h.results hstop i input hover fun j hj => herr j (hclean j hj)

theorem Inv.release (h : s.Inv cfg) {left : List ℕ}
    (hwatchdog : s.watchdog = .releasing (slot :: left)) :
    Handshake.Inv cfg { s with
      watchdog := .releasing left
      done := update s.done slot 1
      suspects := update s.suspects slot none } := by
  have haccused := h.accused
  unfold Accused at haccused
  rw [hwatchdog] at haccused
  -- only a poisoned slot is released
  have hne : ∀ i, s.err i = 0 → i ≠ slot :=
    fun i hi heq => haccused slot List.mem_cons_self (heq ▸ hi)
  refine ⟨h.pool, h.inputs, fun i hi =>
    haccused i (List.mem_cons_of_mem slot hi), h.stopped, fun hstop i hi =>
    ?_, fun hstop i input hover hclean => ?_⟩
  · have hslot := h.slots hstop i hi
    exact hslot.frame rfl rfl rfl (update_of_ne (hne i hi) ..) rfl rfl
      (fun target hc => ⟨rfl, fun hle _ input hs => hslot.computed input target hs hc hle⟩) fun _ =>
      rfl
  · refine h.results hstop i input (hover.imp_left fun hrung => ⟨hrung.1, ?_⟩) hclean
    have hdone := hrung.2
    change 1 ≤ update s.done slot 1 i at hdone
    rwa [update_of_ne (hne i (hclean i rfl))] at hdone

theorem Inv.watchdogStep (h : s.Inv cfg) : (s.watchdogStep cfg).Inv cfg := by
  have haccused := h.accused
  unfold Accused at haccused
  unfold Handshake.watchdogStep
  split
  · exact h.of_watchdog _ _ trivial
  · split
    · exact h.of_watchdog _ _ trivial
    · exact h.of_watchdog _ _ trivial
  · split
    · exact h.of_watchdog _ _ trivial
    · unfold Handshake.decide
      dsimp only
      split
      · exact h.of_watchdog _ _ trivial
      · exact h.of_watchdog _ _ trivial
  · unfold Handshake.judge
    split
    · exact h.of_watchdog _ _ trivial
    · split
      · exact h.of_watchdog _ _ trivial
      · split <;> exact h.of_watchdog _ _ trivial
  · next now dead hwatchdog =>
    refine h.of_watchdog _ _ ?_
    unfold Accused
    split
    · next left dead' heq =>
      split at heq
      · cases heq
      · cases heq
        exact fun i hi => .inl hi
    · next left heq =>
      split at heq <;> cases heq
    · trivial
  · next hwatchdog => exact h.poison hwatchdog
  · next dead hwatchdog =>
    rw [hwatchdog] at haccused
    exact h.of_watchdog _ _ fun i hi => (haccused i hi).resolve_left List.not_mem_nil
  · next hwatchdog => exact h.release hwatchdog
  · exact h.of_watchdog _ _ trivial

/-! ### The stream -/

theorem not_waits_of_ne (h : ∀ input, s.stream ≠ .rung i input) :
    ¬ s.Waits i := fun ⟨⟨input, heq⟩, _⟩ => h input heq

theorem Inv.decode (h : s.Inv cfg) (hstep : s.decode cfg slot input = some s') : s'.Inv cfg := by
  unfold Handshake.decode at hstep
  split at hstep
  · next hidle =>
    obtain ⟨⟨hslot, hregistered⟩, heq⟩ := Option.ite_none_right_eq_some.mp hstep
    rw [← Option.some.inj heq]
    refine ⟨?_, ?_, h.accused, h.stopped, fun hstop i herr => ?_, ?_⟩
    · have hpool := h.pool
      unfold PoolInv at hpool ⊢
      split
      · next hcoord =>
        rw [hcoord] at hpool
        exact ⟨hpool.1, hpool.2.task_eq, hpool.2.completed_le, hpool.2.worker, hpool.2.count,
          hpool.2.all_done⟩
      · next hcoord =>
        split at hpool
        · next heq => exact absurd heq (hcoord _ _)
        · exact ⟨hpool.completed_le, hpool.idle, hpool.seen⟩
    · rintro i input' hcurrent
      cases hcurrent
      exact ⟨update_self .., hslot, hregistered⟩
    · have hrest := (h.slots hstop i herr).at_rest
        (not_waits_of_ne fun _ heq => by rw [hidle] at heq; cases heq)
      exact .of_rest (not_waits_of_ne fun _ heq => StreamPC.noConfusion rfl (heq_of_eq heq)) hrest
        fun _ heq => StreamPC.noConfusion rfl (heq_of_eq heq)
    · rintro hstop i input' (⟨heq, -⟩ | heq)
      · cases heq
      · cases heq
  · cases hstep

theorem Inv.of_stream (h : s.Inv cfg) {stream : StreamPC X} {done : ℕ → ℤ}
    (hcurrent : ∀ i input, current { s with stream } = some (i, input) →
      s.current = some (i, input)) (hrest : ∀ i, s.err i = 0 → s.coordStop = false → ¬ s.Waits i)
    (hnot : ∀ i input, stream ≠ .rung i input) (hcleared : ∀ i input, stream = .cleared i input →
      done i < 1) (hover : ∀ i input, stream = .passed i input → s.Over i input) :
    Handshake.Inv cfg { s with stream, done } where
  pool := h.pool
  inputs i input heq := h.inputs i input (hcurrent i input heq)
  accused := h.accused
  stopped := h.stopped
  slots hstop i herr := by
    have hi := (h.slots hstop i herr).at_rest (hrest i herr hstop)
    exact .of_rest (not_waits_of_ne (hnot i)) hi (hcleared i)
  results hstop i input hov hclean := by
    refine h.results hstop i input ?_ hclean
    rcases hov with ⟨heq, -⟩ | heq
    · exact absurd heq (hnot i input)
    · exact hover i input heq

theorem Inv.ring (h : s.Inv cfg) (hstream : s.stream = .cleared slot input) :
    Handshake.Inv cfg { s with
      stream := .rung slot input
      ready := update s.ready slot 1
      rung := update s.rung slot (s.rung slot + 1) } := by
  -- the stream was not waiting, so the slot was at rest
  have hnot :
    ∀ i, ¬ s.Waits i := fun i => not_waits_of_ne fun _ heq => by rw [hstream] at heq; cases heq
  refine ⟨h.pool, fun i input' hcurrent => ?_, h.accused, h.stopped, fun hstop i herr => ?_,
    fun hstop i input' hover hclean => ?_⟩
  · refine h.inputs i input' ?_
    unfold current at hcurrent ⊢
    rw [hstream]
    exact hcurrent
  · have hi := h.slots hstop i herr
    obtain ⟨hready, hserving, hconsuming, hcount⟩ := hi.at_rest (hnot i)
    by_cases heq : i = slot
    · subst heq
      have hwaits : Waits { s with
          stream := .rung i input
          ready := update s.ready i 1
          rung := update s.rung i (s.rung i + 1) } i := ⟨⟨input, rfl⟩, hi.cleared input hstream⟩
      have hone : update s.ready i 1 i ≠ 0 := by
        rw [update_self]
        exact one_ne_zero
      refine ⟨fun _ => ⟨hwaits, hserving⟩, fun heq => absurd heq hserving, fun _ =>
        .inl hone, fun _ => hone, fun _ heq => StreamPC.noConfusion rfl (heq_of_eq heq), fun _ =>
        ?_, fun hn => absurd hwaits hn, ?_, ?_, ?_⟩
      · show update s.rung i (s.rung i + 1) i = s.answered i + 1
        rw [update_self, hcount]
      · exact fun _ _ _ hc =>
          absurd (show s.serving = some i by unfold serving; rw [show s.coord = _ from hc]) hserving
      · exact fun _ _ _ hc =>
          absurd (show s.serving = some i by unfold serving; rw [show s.coord = _ from hc]) hserving
      · exact fun _ _ hc =>
          absurd (show s.serving = some i by unfold serving; rw [show s.coord = _ from hc]) hserving
    · refine .of_rest (not_waits_of_ne fun _ hr => heq ?_) ⟨?_, hserving, hconsuming, ?_⟩
        fun _ hc => StreamPC.noConfusion rfl (heq_of_eq hc)
      · cases hr
        rfl
      · exact (update_of_ne heq ..).trans hready
      · exact (update_of_ne heq ..).trans hcount
  · rcases hover with ⟨heq, hdone⟩ | heq
    · cases heq
      have hlt := (h.slots hstop slot (hclean slot rfl)).cleared input hstream
      exact absurd hdone (not_le.mpr hlt)
    · cases heq

theorem Inv.streamStep (h : s.Inv cfg) (hstep : s.streamStep = some s') : s'.Inv cfg := by
  have haway :
      (∀ i input, s.stream ≠ .rung i input) → ∀ i, s.err i = 0 → s.coordStop = false →
      ¬ s.Waits i :=
    fun hne i _ _ => not_waits_of_ne (hne i)
  unfold Handshake.streamStep at hstep
  split at hstep
  · cases hstep
  · next slot input hstream =>
    rw [← Option.some.inj hstep]
    refine h.of_stream (fun i input' hcurrent => ?_) (haway fun _ _ heq => ?_) (fun _ _ heq => ?_)
      (fun i _ heq => ?_) fun _ _ heq => ?_
    · unfold current at hcurrent ⊢
      rw [hstream]
      exact hcurrent
    · rw [hstream] at heq
      cases heq
    · cases heq
    · cases heq
      rw [update_self]
      exact Int.zero_lt_one
    · cases heq
  · next slot input hstream =>
    rw [← Option.some.inj hstep]
    exact h.ring hstream
  · next slot input hstream =>
    -- the stream passes only when the slot is answered
    obtain ⟨hdone, heq⟩ := Option.ite_none_right_eq_some.mp hstep
    rw [← Option.some.inj heq]
    refine h.of_stream (fun i input' hcurrent => ?_) (fun i _ _ hwaits => ?_) (fun _ _ heq => ?_)
      (fun _ _ heq => ?_) fun _ _ heq => ?_
    · unfold current at hcurrent ⊢
      rw [hstream]
      exact hcurrent
    · obtain ⟨⟨input', heq⟩, hlt⟩ := hwaits
      rw [hstream] at heq
      cases heq
      omega
    · cases heq
    · cases heq
    · cases heq
      exact .inl ⟨hstream, hdone⟩
  · next slot input hstream =>
    rw [← Option.some.inj hstep]
    refine h.of_stream (fun _ _ hcurrent => ?_) (haway fun _ _ heq => ?_) (fun _ _ heq => ?_)
      (fun _ _ heq => ?_) fun _ _ heq => ?_
    · cases hcurrent
    · rw [hstream] at heq
      cases heq
    · cases heq
    · cases heq
    · cases heq

/-! ### The coordinator -/

theorem serving_eq_some : s.serving = some i ↔
    s.coord = .taken i ∨ (∃ target, s.coord = .syncing i target) ∨ s.coord = .finished i := by
  unfold serving
  cases s.coord <;> simp

theorem Inv.of_coord (h : s.Inv cfg) {coord : CoordPC} {flagServed : ℕ → ℕ}
    (hpool : s.pool.Idle cfg.numThreads)
    (hserving : s.serving = none) (hserving' : serving { s with coord } = none)
    (hstopped : (∃ i, coord = .tearing i) ∨ coord = .exited → s.coordStop = true)
    (hseen : ∀ i, coord = .consuming i → s.ready i ≠ 0) :
    Handshake.Inv cfg { s with coord, flagServed } where
  pool := by
    unfold PoolInv
    dsimp only
    split
    · cases hserving'
    · exact hpool
  inputs := h.inputs
  accused := h.accused
  stopped := hstopped
  slots hstop i herr := by
    refine (h.slots hstop i herr).elsewhere rfl rfl rfl rfl rfl ?_ ?_ (hseen i)
    · rw [hserving]
      exact Option.noConfusion rfl ∘ heq_of_eq
    · show serving { s with coord } ≠ some i
      rw [hserving']
      exact Option.noConfusion rfl ∘ heq_of_eq
  results := h.results

theorem Inv.pool_idle (h : s.Inv cfg) (hcoord : ∀ slot target, s.coord ≠ .syncing slot target) :
    s.pool.Idle cfg.numThreads := by
  have hpool := h.pool
  unfold PoolInv at hpool
  split at hpool
  · next slot target heq => exact absurd heq (hcoord slot target)
  · exact hpool

theorem Inv.consume (h : s.Inv cfg) (hcoord : s.coord = .consuming slot) :
    Handshake.Inv cfg { s with coord := .taken slot, ready := update s.ready slot 0 } := by
  have hpool := h.pool_idle fun _ _ heq => by rw [hcoord] at heq; cases heq
  refine ⟨hpool, h.inputs, h.accused, ?_, fun hstop i herr => ?_, h.results⟩
  · rintro (⟨_, heq⟩ | heq) <;> cases heq
  · have hi := h.slots hstop i herr
    have hserving : s.serving ≠ some i := fun heq => by
      unfold serving at heq
      rw [hcoord] at heq
      cases heq
    by_cases heq : i = slot
    · subst heq
      have hwaits := (hi.ringing (hi.seen hcoord)).1
      have hzero : update s.ready i 0 i = 0 := update_self ..
      exact ⟨fun hne => absurd hzero hne, fun _ => ⟨hwaits, hzero⟩, fun _ => .inr rfl, fun hc =>
        CoordPC.noConfusion hc, hi.cleared, hi.pending, hi.counted, fun _ _ _ hc =>
        CoordPC.noConfusion hc, fun _ _ _ hc => CoordPC.noConfusion hc, fun _ _ hc =>
        CoordPC.noConfusion hc⟩
    · exact hi.elsewhere rfl (update_of_ne heq ..) rfl rfl rfl hserving
        (fun hs => heq (Option.some.inj hs).symm) fun hc => CoordPC.noConfusion hc

theorem Inv.take (h : s.Inv cfg) {slot : ℕ} (hcoord : s.coord = .taken slot) :
    Handshake.Inv cfg (if s.registered slot then
        { s.submit cfg slot with coord := .syncing slot (s.submit cfg slot).pool.submitted }
      else { s with coord := .finished slot }) := by
  have hpool := h.pool_idle fun _ _ heq => by rw [hcoord] at heq; cases heq
  have hserving : s.serving = some slot := serving_eq_some.mpr (.inl hcoord)
  split
  · refine ⟨⟨rfl, hpool.submit slot _⟩, h.inputs, h.accused, ?_, fun hstop i herr => ?_, h.results⟩
    · rintro (⟨_, heq⟩ | heq) <;> cases heq
    · have hi := h.slots hstop i herr
      by_cases heq : i = slot
      · subst heq
        have hboth := hi.served hserving
        refine ⟨fun hne => absurd hboth.2 hne, fun _ => hboth, fun _ => .inr rfl, fun hc =>
          CoordPC.noConfusion hc, hi.cleared, hi.pending, hi.counted, fun input target hs hc =>
          ?_, fun input target hs hc hle => ?_, fun _ _ hc => CoordPC.noConfusion hc⟩
        · have hx := (h.inputs i input (by unfold current; rw [show s.stream = _ from hs])).1
          exact congrArg some hx
        · cases hc
          have hcompleted := hpool.completed_le
          change s.pool.curGen + 1 ≤ s.pool.completed at hle
          omega
      · refine hi.elsewhere rfl rfl rfl rfl rfl ?_ (fun hs => heq (Option.some.inj hs).symm)
          fun hc => CoordPC.noConfusion hc
        rw [hserving]
        exact fun hs => heq (Option.some.inj hs).symm
  · next hregistered =>
    refine ⟨hpool, h.inputs, h.accused, ?_, fun hstop i herr => ?_, h.results⟩
    · rintro (⟨_, heq⟩ | heq) <;> cases heq
    · have hi := h.slots hstop i herr
      by_cases heq : i = slot
      · subst heq
        -- the stream waits at a slot only if its task is registered
        obtain ⟨⟨input, hs⟩, -⟩ := (hi.served hserving).1
        exact absurd (h.inputs i input (by unfold current; rw [hs])).2.2 hregistered
      · refine hi.elsewhere rfl rfl rfl rfl rfl ?_ (fun hs => heq (Option.some.inj hs).symm)
          fun hc => CoordPC.noConfusion hc
        rw [hserving]
        exact fun hs => heq (Option.some.inj hs).symm

theorem Inv.synced (h : s.Inv cfg) {target : ℕ} (hcoord : s.coord = .syncing slot target)
    (hle : target ≤ s.pool.completed) : Handshake.Inv cfg { s with coord := .finished slot } := by
  have hpool := h.pool
  unfold PoolInv at hpool
  rw [hcoord] at hpool
  obtain ⟨htarget, hrunning⟩ := hpool
  have hidle := hrunning.toIdle (le_antisymm hrunning.completed_le (htarget ▸ hle))
  have hserving : s.serving = some slot := serving_eq_some.mpr (.inr (.inl ⟨target, hcoord⟩))
  refine ⟨hidle, h.inputs, h.accused, ?_, fun hstop i herr => ?_, h.results⟩
  · rintro (⟨_, heq⟩ | heq) <;> cases heq
  · have hi := h.slots hstop i herr
    by_cases heq : i = slot
    · subst heq
      have hboth := hi.served hserving
      exact ⟨fun hne => absurd hboth.2 hne, fun _ => hboth, fun _ => .inr rfl, fun hc =>
        CoordPC.noConfusion hc, hi.cleared, hi.pending, hi.counted, fun _ _ _ hc =>
        CoordPC.noConfusion hc, fun _ _ _ hc => CoordPC.noConfusion hc, fun input hs _ =>
        hi.computed input target hs hcoord hle⟩
    · refine hi.elsewhere rfl rfl rfl rfl rfl ?_ (fun hs => heq (Option.some.inj hs).symm)
        fun hc => CoordPC.noConfusion hc
      rw [hserving]
      exact fun hs => heq (Option.some.inj hs).symm

theorem Inv.answer (h : s.Inv cfg) (hcoord : s.coord = .finished slot) :
    Handshake.Inv cfg { s with
      coord := .answered slot
      done := update s.done slot 1
      answered := update s.answered slot (s.answered slot + 1) } := by
  have hpool := h.pool_idle fun _ _ heq => by rw [hcoord] at heq; cases heq
  have hserving : s.serving = some slot := serving_eq_some.mpr (.inr (.inr hcoord))
  have hone : update s.done slot 1 slot = 1 := update_self ..
  refine ⟨hpool, h.inputs, h.accused, ?_, fun hstop i herr => ?_, fun hstop i input hover hclean =>
    ?_⟩
  · rintro (⟨_, heq⟩ | heq) <;> cases heq
  · -- the slot that is answered no longer waits; another one is as before
    have hi := h.slots hstop i herr
    by_cases heq : i = slot
    · subst heq
      obtain ⟨hwaits, hready⟩ := hi.served hserving
      obtain ⟨⟨input, hs⟩, -⟩ := id hwaits
      have hnot : ¬ Waits { s with
          coord := .answered i
          done := update s.done i 1
          answered := update s.answered i (s.answered i + 1) } i := fun hw => by
        have hlt := hw.2
        change update s.done i 1 i < 1 at hlt
        omega
      refine .of_rest hnot ⟨hready, ?_, fun hc => CoordPC.noConfusion hc, ?_⟩ fun input' hc => ?_
      · exact Option.noConfusion rfl ∘ heq_of_eq
      · show s.rung i = update s.answered i (s.answered i + 1) i
        rw [update_self]
        exact hi.pending hwaits
      · change s.stream = _ at hc
        rw [hs] at hc
        cases hc
    · refine hi.elsewhere rfl rfl (update_of_ne heq ..) rfl (update_of_ne heq ..) ?_ ?_
        fun hc => CoordPC.noConfusion hc
      · rw [hserving]
        exact fun hs => heq (Option.some.inj hs).symm
      · exact Option.noConfusion rfl ∘ heq_of_eq
  · by_cases heq : i = slot
    · subst heq
      have hi := h.slots hstop i (hclean i rfl)
      obtain ⟨⟨input', hs⟩, -⟩ := (hi.served hserving).1
      have hsame : input' = input := by
        rcases hover with ⟨hs', -⟩ | hs' <;> change s.stream = _ at hs' <;> rw [hs] at hs' <;> cases
          hs'
        rfl
      subst hsame
      exact hi.written input' hs hcoord
    · refine h.results hstop i input (hover.imp_left fun hrung => ⟨hrung.1, ?_⟩) hclean
      have hdone := hrung.2
      change 1 ≤ update s.done slot 1 i at hdone
      rwa [update_of_ne heq] at hdone

theorem Inv.coordStep (h : s.Inv cfg) (hstep : s.coordStep cfg = some s') : s'.Inv cfg := by
  unfold Handshake.coordStep at hstep
  split at hstep
  · next hcoord =>
    rw [← Option.some.inj hstep]
    have hpool := h.pool_idle fun _ _ heq => by rw [hcoord] at heq; cases heq
    refine h.of_coord hpool (by unfold serving; rw [hcoord]) ?_ (fun htearing => ?_) fun i heq => ?_
    · unfold serving
      cases s.coordStop <;> rfl
    · by_contra hstop
      rw [if_neg hstop] at htearing
      rcases htearing with ⟨_, heq⟩ | heq <;> cases heq
    · split at heq <;> cases heq
  · -- a scan that finds a doorbell has seen it rung
    next slot hcoord =>
    rw [← Option.some.inj hstep]
    have hpool := h.pool_idle fun _ _ heq => by rw [hcoord] at heq; cases heq
    refine h.of_coord hpool (by unfold serving; rw [hcoord]) ?_ (fun htearing => ?_) fun i heq => ?_
    · by_cases hslot : slot < cfg.numSlots
      · rw [if_pos hslot]
        by_cases hready : s.ready slot ≠ 0
        · rw [if_pos hready]
          rfl
        · rw [if_neg hready]
          rfl
      · rw [if_neg hslot]
        rfl
    · split at htearing
      · split at htearing
        · rcases htearing with ⟨_, heq⟩ | heq <;> cases heq
        · rcases htearing with ⟨_, heq⟩ | heq <;> cases heq
      · rcases htearing with ⟨_, heq⟩ | heq <;> cases heq
    · split at heq
      · split at heq
        · next hready =>
          cases heq
          exact hready
        · cases heq
      · cases heq
  · next slot hcoord =>
    rw [← Option.some.inj hstep]
    exact h.consume hcoord
  · next slot hcoord =>
    rw [← Option.some.inj hstep]
    exact h.take hcoord
  · next slot target hcoord =>
    obtain ⟨hle, heq⟩ := Option.ite_none_right_eq_some.mp hstep
    rw [← Option.some.inj heq]
    exact h.synced hcoord hle
  · next slot hcoord =>
    rw [← Option.some.inj hstep]
    exact h.answer hcoord
  · next slot hcoord =>
    rw [← Option.some.inj hstep]
    have hpool := h.pool_idle fun _ _ heq => by rw [hcoord] at heq; cases heq
    refine h.of_coord hpool (by unfold serving; rw [hcoord]) rfl (fun htearing => ?_) fun i heq =>
      CoordPC.noConfusion heq
    rcases htearing with ⟨_, heq⟩ | heq <;> cases heq
  · next slot hcoord =>
    have hpool := h.pool_idle fun _ _ heq => by rw [hcoord] at heq; cases heq
    -- the teardown comes only after a stop
    have hstop := h.stopped (.inl ⟨slot, hcoord⟩)
    have hnot : s.coordStop ≠ false := by rw [hstop]; exact Bool.noConfusion
    rw [← Option.some.inj hstep]
    split
    · exact ⟨hpool, h.inputs, h.accused, fun _ => hstop, fun hfalse =>
        absurd hfalse hnot, fun hfalse => absurd hfalse hnot⟩
    · exact ⟨hpool, h.inputs, h.accused, fun _ => hstop, fun hfalse =>
        absurd hfalse hnot, fun hfalse => absurd hfalse hnot⟩
  · cases hstep

/-! ### The workers -/

theorem Inv.running (h : s.Inv cfg) (hw : (s.pool.workers worker).running = some slot) :
    ∃ target, s.coord = .syncing slot target ∧ target = s.pool.curGen ∧
      s.pool.Running cfg.numThreads slot ∧
      s.pool.completed < target := by
  have hpool := h.pool
  unfold PoolInv at hpool
  split at hpool
  · next slot' target hcoord =>
    obtain ⟨htarget, hrunning⟩ := hpool
    rcases hrunning.worker worker with hidle | ⟨hsome, -, -⟩
    · rw [hw] at hidle
      cases hidle
    · rw [hw] at hsome
      cases hsome
      refine ⟨target, hcoord, htarget, hrunning, ?_⟩
      by_contra hnot
      have hidle := hrunning.toIdle (le_antisymm hrunning.completed_le (htarget ▸ not_lt.mp hnot))
      have hnone := hidle.idle worker
      rw [hw] at hnone
      cases hnone
  · have hnone := hpool.idle worker
    rw [hw] at hnone
    cases hnone

theorem Inv.results_kept (h : s.Inv cfg) (hw : (s.pool.workers worker).running = some slot)
    (hstop : s.coordStop = false) (hover : s.Over i input)
    (hclean : ∀ j, cfg.batch j = cfg.batch i → s.err j = 0)
    (value : Y) : update s.y (cfg.batch slot) value (cfg.batch i) = cfg.task i input := by
  obtain ⟨target, hcoord, -⟩ := h.running hw
  have hne : cfg.batch i ≠ cfg.batch slot := fun heq => by
    -- the stream would wait at the task's slot
    have hslot := h.slots hstop slot (hclean slot heq.symm)
    obtain ⟨⟨input', hs⟩, hlt⟩ :=
      (hslot.served (serving_eq_some.mpr (.inr (.inl ⟨target, hcoord⟩)))).1
    rcases hover with ⟨hs', hdone⟩ | hs'
    · rw [hs] at hs'
      cases hs'
      omega
    · rw [hs] at hs'
      cases hs'
  rw [update_of_ne hne]
  exact h.results hstop i input hover hclean

theorem Inv.workerTake (h : s.Inv cfg) (hstep : s.workerTake cfg worker = some s') :
    s'.Inv cfg := by
  obtain ⟨⟨hlt, -, hgen⟩, heq⟩ := Option.ite_none_right_eq_some.mp hstep
  rw [← Option.some.inj heq]
  refine ⟨?_, h.inputs, h.accused, h.stopped, fun hstop i herr => ?_, h.results⟩
  · have hpool := h.pool
    unfold PoolInv at hpool ⊢
    split
    · next hcoord =>
      rw [hcoord] at hpool
      exact ⟨hpool.1, hpool.2.take hlt hgen⟩
    · next hcoord =>
      exact absurd ((h.pool_idle hcoord).seen worker hlt) hgen
  · have hi := h.slots hstop i herr
    exact hi.frame rfl rfl rfl rfl rfl rfl
      (fun target hc => ⟨rfl, fun hle _ input hs => hi.computed input target hs hc hle⟩) fun _ =>
      rfl

theorem Inv.workerWrite (h : s.Inv cfg) {value : Y}
    (hstep : s.workerWrite cfg worker value = some s') :
    s'.Inv cfg := by
  unfold Handshake.workerWrite at hstep
  split at hstep
  · next slot hw =>
    obtain ⟨target, hcoord, -, -, hlt⟩ := h.running hw
    rw [← Option.some.inj hstep]
    refine ⟨h.pool, h.inputs, h.accused, h.stopped, fun hstop i herr =>
      ?_, fun hstop i input hover hclean =>
      h.results_kept hw hstop hover hclean value⟩
    have hi := h.slots hstop i herr
    refine hi.frame rfl rfl rfl rfl rfl rfl (fun target' hc => ⟨rfl, fun hle => ?_⟩) fun hc => ?_
    · rw [hcoord] at hc
      cases hc
      exact absurd hle (not_le.mpr hlt)
    · rw [hcoord] at hc
      cases hc
  · cases hstep

theorem Inv.workerDone (h : s.Inv cfg) {value : Y}
    (hstep : s.workerDone cfg worker value = some s') :
    s'.Inv cfg := by
  unfold Handshake.workerDone at hstep
  split at hstep
  · next slot hw =>
    obtain ⟨target, hcoord, htarget, hrunning, hlt⟩ := h.running hw
    rw [← Option.some.inj hstep]
    split
    · next hlast =>
      -- the result is there
      refine ⟨?_, h.inputs, h.accused, h.stopped, fun hstop i herr =>
        ?_, fun hstop i input hover hclean =>
        h.results_kept hw hstop hover hclean _⟩
      · unfold PoolInv
        rw [hcoord]
        exact ⟨htarget, hrunning.finish hw (.inr ⟨rfl, hlast⟩)⟩
      · have hi := h.slots hstop i herr
        refine hi.frame rfl rfl rfl rfl rfl rfl
          (fun target' hc => ⟨rfl, fun _ _ input hs => ?_⟩) fun hc => ?_
        · have hinput := hi.intact input target' hs hc
          rw [hcoord] at hc
          cases hc
          show update s.y _ ((s.pool.input.map (cfg.task slot)).getD value) (cfg.batch slot) = _
          rw [update_self, hinput]
          rfl
        · rw [hcoord] at hc
          cases hc
    · next hmore =>
      refine ⟨?_, h.inputs, h.accused, h.stopped, fun hstop i herr => ?_, h.results⟩
      · unfold PoolInv
        rw [hcoord]
        exact ⟨htarget, hrunning.finish hw (.inl ⟨rfl, hmore⟩)⟩
      · have hi := h.slots hstop i herr
        exact hi.frame rfl rfl rfl rfl rfl rfl
          (fun target hc => ⟨rfl, fun hle _ input hs => hi.computed input target hs hc hle⟩)
          fun _ => rfl
  · cases hstep

/-! ### Runs -/

theorem init_inv (x : ℕ → X) (y : ℕ → Y) : Handshake.Inv cfg { x, y } where
  pool := ⟨le_refl 0, fun _ => rfl, fun _ _ => rfl⟩
  inputs _ _ h := by cases h
  accused := trivial
  stopped h := by rcases h with ⟨_, heq⟩ | heq <;> cases heq
  slots _ i _ := by
    refine .of_rest (not_waits_of_ne fun _ heq => ?_) ⟨rfl, fun heq => ?_, fun heq => ?_, rfl⟩
      fun _ heq => ?_ <;> cases heq
  results _ _ _ hover := by rcases hover with ⟨heq, -⟩ | heq <;> cases heq

/-- **Every step keeps the invariant.** -/
theorem step_inv {e : Event X Y} (h : s.Inv cfg) (hstep : s.step cfg e = some s') : s'.Inv cfg := by
  cases e with
  | register slot =>
    rw [← Option.some.inj hstep]
    refine ⟨h.pool, fun i input hcurrent => ?_, h.accused, h.stopped, fun hstop i herr =>
      ?_, h.results⟩
    · refine ⟨(h.inputs i input hcurrent).1, (h.inputs i input hcurrent).2.1, ?_⟩
      show update s.registered slot true i = true
      by_cases heq : i = slot
      · rw [heq, update_self]
      · rw [update_of_ne heq]
        exact (h.inputs i input hcurrent).2.2
    · have hi := h.slots hstop i herr
      exact hi.frame rfl rfl rfl rfl rfl rfl
        (fun target hc => ⟨rfl, fun hle _ input hs => hi.computed input target hs hc hle⟩) fun _ =>
        rfl
  | decode slot input => exact h.decode hstep
  | stream => exact h.streamStep hstep
  | coord => exact h.coordStep hstep
  | workerTake worker => exact h.workerTake hstep
  | workerWrite worker value => exact h.workerWrite hstep
  | workerDone worker value => exact h.workerDone hstep
  | stop =>
    rw [← Option.some.inj hstep]
    exact ⟨h.pool, h.inputs, h.accused, fun _ => rfl, fun hfalse =>
      absurd hfalse.symm Bool.false_ne_true, fun hfalse => absurd hfalse.symm Bool.false_ne_true⟩
  | watchdog =>
    rw [← Option.some.inj hstep]
    exact h.watchdogStep
  | elapse duration =>
    rw [← Option.some.inj hstep]
    refine ⟨h.pool, h.inputs, h.accused, h.stopped, fun hstop i herr => ?_, h.results⟩
    have hi := h.slots hstop i herr
    exact hi.frame rfl rfl rfl rfl rfl rfl
      (fun target hc => ⟨rfl, fun hle _ input hs => hi.computed input target hs hc hle⟩) fun _ =>
      rfl

end Handshake

open Transition

variable {s : Handshake X Y} {x : ℕ → X} {y : ℕ → Y} {es : List (Event X Y)}

theorem run_inv (hrun : run (Handshake.step cfg) { x, y } es = some s) : s.Inv cfg :=
  run_keeps Handshake.step_inv (Handshake.init_inv x y) hrun

/-- Every doorbell of the slot so far was answered once, up to the one that the stream waits for,
which rings or is being served. -/
def Handshake.AnsweredOnce (s : Handshake X Y) (i : ℕ) : Prop :=
  (s.Waits i → s.rung i = s.answered i + 1 ∧ (s.ready i ≠ 0 ∨ s.serving = some i)) ∧
    (¬ s.Waits i → s.rung i = s.answered i ∧ s.ready i = 0 ∧ s.serving ≠ some i)

theorem Handshake.SlotInv.answeredOnce (h : Handshake.SlotInv cfg s i) : s.AnsweredOnce i := by
  refine ⟨fun hwaits => ⟨h.pending hwaits, h.kept hwaits⟩, fun hnot => ?_⟩
  obtain ⟨hready, hserving, -, hcount⟩ := h.at_rest hnot
  exact ⟨hcount, hready, hserving⟩

/-- **Each decode step gets its own output.**  When the stream has passed its wait at a slot, `y`
holds the result of the step's task on the step's inputs, unless the watchdog has fired for a slot
with the same buffers, or the coordinator was stopped.  Until then, every doorbell is answered once,
so that no `done` of an earlier step ends a later wait. -/
theorem flag_handshake (hrun : run (Handshake.step cfg) { x, y } es = some s) :
    (∀ i input, s.stream = .passed i input → s.y (cfg.batch i) = cfg.task i input ∨
      (∃ j, cfg.batch j = cfg.batch i ∧ s.err j ≠ 0) ∨ s.coordStop = true) ∧
    (s.coordStop = false → ∀ i, s.err i = 0 → s.AnsweredOnce i) := by
  have hinv := run_inv hrun
  refine ⟨fun i input hpassed => ?_, fun hstop i herr => (hinv.slots hstop i herr).answeredOnce⟩
  by_cases hclean : ∀ j, cfg.batch j = cfg.batch i → s.err j = 0
  · cases hstop : s.coordStop with
    | false => exact .inl (hinv.results hstop i input (.inr hpassed) hclean)
    | true => exact .inr (.inr rfl)
  · push Not at hclean
    exact .inr (.inl hclean)

/-- Two slots that share their buffers, and one worker. -/
def twoSlots : Setup ℕ ℕ where
  numSlots := 2
  numThreads := 1
  batch _ := 0
  task slot input := 100 * slot + input
  setOrder slots := slots
  mem_setOrder := Iff.rfl

def oneStep : List (Event ℕ ℕ) :=
  List.flatten [[.register 0, .decode 0 7, .stream, .stream], List.replicate 4 .coord,
    [.workerTake 0, .workerDone 0 0, .coord, .coord, .stream]]

theorem flag_handshake_step :
    ∃ s, run (Handshake.step twoSlots) { x := fun _ => 0, y := fun _ => 0 } oneStep = some s ∧
    s.stream = .passed 0 7 ∧ s.y 0 = 7 ∧ s.AnsweredOnce 0 := by
  have hrun :
    ∃ s, run (Handshake.step twoSlots) { x := fun _ => 0, y := fun _ => 0 } oneStep = some s ∧
      s.stream = .passed 0 7 ∧ s.coordStop = false ∧ ∀ j, s.err j = 0 :=
        ⟨_, rfl, rfl, rfl, fun _ => rfl⟩
  obtain ⟨s, hrun, hpassed, hstop, hclean⟩ := hrun
  have hboth := flag_handshake hrun
  refine ⟨s, hrun, hpassed, ?_, hboth.2 hstop 0 (hclean 0)⟩
  rcases hboth.1 0 7 hpassed with hy | ⟨j, -, herr⟩ | hstopped
  · exact hy
  · exact absurd (hclean j) herr
  · rw [hstop] at hstopped
    cases hstopped

/-- The watchdog poisons slot 1.  The stream goes on with slot 0, and the coordinator answers it;
then it takes the doorbell of slot 1, which is still there, and runs slot 1's task again into the
same buffer. -/
def lateService : List (Event ℕ ℕ) :=
  List.flatten [[.register 0, .register 1, .decode 1 5, .stream, .stream],
    List.replicate 9 .watchdog, [.elapse kDeadline], List.replicate 13 .watchdog,
    [.stream, .stream, .decode 0 7, .stream, .stream], List.replicate 4 .coord,
    [.workerTake 0, .workerDone 0 0, .coord, .coord, .stream], List.replicate 4 .coord,
    [.workerTake 0, .workerDone 0 0]]

/-- The flag of the slot itself does not tell of it: the result of slot 0 is overwritten. -/
theorem not_flag_handshake_own_slot :
    ¬ ∀ (X Y : Type) (cfg : Setup X Y) (x : ℕ → X) (y : ℕ → Y) (es : List (Event X Y))
      (s : Handshake X Y),
      run (Handshake.step cfg) { x, y } es = some s → ∀ i input, s.stream = .passed i input →
        s.y (cfg.batch i) = cfg.task i input ∨ s.err i ≠ 0 ∨ s.coordStop = true := by
  intro hall
  have hend : (run (Handshake.step twoSlots) { x := fun _ => 0, y := fun _ => 0 } lateService).map
      (fun s => (s.stream, s.y 0, s.err 0, s.coordStop)) =
        some (.passed 0 7, 107, 0, false) := by rfl
  obtain ⟨s, hrun, heq⟩ := Option.map_eq_some_iff.mp hend
  obtain ⟨hpassed, hy, herr, hstop⟩ : s.stream = _ ∧ s.y 0 = _ ∧ s.err 0 = _ ∧ s.coordStop = _ := by
    simpa only [Prod.mk.injEq] using heq
  rcases hall ℕ ℕ twoSlots _ _ _ s hrun 0 7 hpassed with hresult | hne | hstopped
  · rw [show s.y (twoSlots.batch 0) = 107 from hy] at hresult
    cases hresult
  · exact hne herr
  · rw [hstop] at hstopped
    cases hstopped

end FlagSync

end FreeToken
