import Mathlib.Data.List.Range

/-!
# The flag handshake of the CPU experts

A decode step rings the doorbell `ready[slot]` and waits for `done[slot]`.  A coordinator thread
polls the doorbells, has a pool of workers run the slot's task, and answers.  A watchdog thread
poisons a slot whose doorbell stays unanswered.

Each access of a party to a flag is a step of its own; the stream executes its commands in order.
-/

namespace FreeToken

namespace FlagSync

/-- The sizes, the batch size of each slot, which its pinned buffers belong to, what its task
computes, and the order in which Python goes through a set of slots. -/
structure Setup (X Y : Type) where
  numSlots : ℕ
  numThreads : ℕ
  batch : ℕ → ℕ
  task : ℕ → X → Y
  setOrder : List ℕ → List ℕ
  mem_setOrder : ∀ {slots slot}, slot ∈ setOrder slots ↔ slot ∈ slots

/-- Where the stream is, with the slot and the input of its decode step. -/
inductive StreamPC (X : Type) where
  | idle
  /-- The inputs are copied to the host. -/
  | copied (slot : ℕ) (input : X)
  /-- `done` is reset. -/
  | cleared (slot : ℕ) (input : X)
  /-- `ready` is raised: the stream waits. -/
  | rung (slot : ℕ) (input : X)
  /-- The wait is over, and `y` is to be copied. -/
  | passed (slot : ℕ) (input : X)

/-- Where `coordinator_loop` is. -/
inductive CoordPC where
  /-- The condition of the loop. -/
  | head
  | scanning (slot : ℕ)
  /-- The doorbell was seen. -/
  | consuming (slot : ℕ)
  /-- The doorbell is reset. -/
  | taken (slot : ℕ)
  /-- `sync` waits for this generation. -/
  | syncing (slot target : ℕ)
  /-- The task has run. -/
  | finished (slot : ℕ)
  /-- `done` is written, and the service not counted yet. -/
  | answered (slot : ℕ)
  | tearing (slot : ℕ)
  | exited
deriving DecidableEq

/-- A worker of the pool: the generation that it has seen last, and the task that it runs. -/
structure Worker where
  myGen : ℕ := 0
  running : Option ℕ := none
deriving DecidableEq

structure Pool (X : Type) where
  curGen : ℕ := 0
  submitted : ℕ := 0
  completed : ℕ := 0
  doneCount : ℕ := 0
  curTask : ℕ := 0
  workers : ℕ → Worker := fun _ => {}
  /-- What is in the task's input buffer, unless it was written to since the submit. -/
  input : Option X := none

/-- An entry of `suspects`. -/
structure Suspect where
  firstSeen : ℕ
  served : ℕ
deriving DecidableEq

/-- Where `_watchdog_tick` is. -/
inductive WatchdogPC where
  | sleeping
  /-- The slots before `slot` are sampled. -/
  | readingReady (slot : ℕ) (ready : ℕ → Bool)
  | readingDone (slot : ℕ) (ready done : ℕ → Bool)
  | judging (now : ℕ) (left dead : List ℕ)
  | poisoning (left dead : List ℕ)
  | releasing (left : List ℕ)

/-- The state of all parties.  `rung` and `answered` are history: how often a doorbell was rung, and
how often it was answered. -/
structure Handshake (X Y : Type) where
  ready : ℕ → ℤ := fun _ => 0
  done : ℕ → ℤ := fun _ => 0
  err : ℕ → ℤ := fun _ => 0
  x : ℕ → X
  y : ℕ → Y
  stream : StreamPC X := .idle
  coord : CoordPC := .head
  coordStop : Bool := false
  /-- `flag_task[slot]` is there. -/
  registered : ℕ → Bool := fun _ => false
  flagServed : ℕ → ℕ := fun _ => 0
  pool : Pool X := {}
  watchdog : WatchdogPC := .sleeping
  suspects : ℕ → Option Suspect := fun _ => none
  /-- `time.monotonic()`, in nanoseconds. -/
  clock : ℕ := 0
  rung : ℕ → ℕ := fun _ => 0
  answered : ℕ → ℕ := fun _ => 0

inductive Event (X Y : Type) where
  | register (slot : ℕ)
  /-- The next decode step: its inputs are copied. -/
  | decode (slot : ℕ) (input : X)
  /-- The next command of the stream. -/
  | stream
  | coord
  | workerTake (worker : ℕ)
  /-- A worker writes a part of a result. -/
  | workerWrite (worker : ℕ) (value : Y)
  /-- A worker is done; if it is the last, the result is there (`value`, where the inputs were
  written to meanwhile). -/
  | workerDone (worker : ℕ) (value : Y)
  | stop
  | watchdog
  | elapse (duration : ℕ)

/-- `INT64_MAX`. -/
def kInt64Max : ℤ := 9223372036854775807

def kDeadline : ℕ := 10000000000

namespace Handshake

variable {X Y : Type}

/-- `register_flag_task`. -/
def register (s : Handshake X Y) (slot : ℕ) : Handshake X Y :=
  { s with registered := Function.update s.registered slot true }

/-- The inputs of a decode step are copied to the pinned buffers of its batch size.  `_task_for` has
registered the task. -/
def decode (cfg : Setup X Y) (s : Handshake X Y) (slot : ℕ) (input : X) : Option (Handshake X Y) :=
  match s.stream with
  | .idle =>
    if slot < cfg.numSlots ∧ s.registered slot = true then
      some { s with
        stream := .copied slot input
        x := Function.update s.x (cfg.batch slot) input
        pool := { s.pool with
          input := if cfg.batch s.pool.curTask = cfg.batch slot then none else s.pool.input } }
    else none
  | _ => none

/-- `memop_submit`, `memop_sync` and the copy of `y`. -/
def streamStep (s : Handshake X Y) : Option (Handshake X Y) :=
  match s.stream with
  | .idle => none
  | .copied slot input =>
    some { s with stream := .cleared slot input, done := Function.update s.done slot 0 }
  | .cleared slot input =>
    some { s with
      stream := .rung slot input
      ready := Function.update s.ready slot 1
      rung := Function.update s.rung slot (s.rung slot + 1) }
  | .rung slot input => if 1 ≤ s.done slot then some { s with stream := .passed slot input }
    else none
  | .passed _ _ => some { s with stream := .idle }

def submit (cfg : Setup X Y) (s : Handshake X Y) (slot : ℕ) : Handshake X Y :=
  { s with pool := { s.pool with
      curGen := s.pool.curGen + 1
      submitted := s.pool.curGen + 1
      doneCount := 0
      curTask := slot
      input := some (s.x (cfg.batch slot)) } }

/-- The next step of `coordinator_loop`. -/
def coordStep (cfg : Setup X Y) (s : Handshake X Y) : Option (Handshake X Y) :=
  match s.coord with
  | .head => some { s with coord := if s.coordStop then .tearing 0 else .scanning 0 }
  | .scanning slot =>
    some { s with
      coord := if slot < cfg.numSlots then
          if s.ready slot ≠ 0 then .consuming slot else .scanning (slot + 1)
        else .head }
  | .consuming slot => some { s with coord := .taken slot, ready := Function.update s.ready slot 0 }
  | .taken slot =>
    some (if s.registered slot then
        { s.submit cfg slot with coord := .syncing slot (s.submit cfg slot).pool.submitted }
      else { s with coord := .finished slot })
  | .syncing slot target =>
    if target ≤ s.pool.completed then some { s with coord := .finished slot } else none
  | .finished slot =>
    some { s with
      coord := .answered slot
      done := Function.update s.done slot 1
      answered := Function.update s.answered slot (s.answered slot + 1) }
  | .answered slot =>
    some { s with
      coord := .scanning (slot + 1)
      flagServed := Function.update s.flagServed slot (s.flagServed slot + 1) }
  | .tearing slot =>
    some (if slot < cfg.numSlots then
        { s with coord := .tearing (slot + 1), done := Function.update s.done slot kInt64Max }
      else { s with coord := .exited })
  | .exited => none

/-- `worker_loop`: a new generation is there. -/
def workerTake (cfg : Setup X Y) (s : Handshake X Y) (worker : ℕ) : Option (Handshake X Y) :=
  if worker < cfg.numThreads ∧ (s.pool.workers worker).running = none ∧
      (s.pool.workers worker).myGen ≠ s.pool.curGen then
    some { s with pool := { s.pool with
      workers := Function.update s.pool.workers worker
        { myGen := s.pool.curGen, running := some s.pool.curTask } } }
  else none

/-- `run_task_body`, before its end. -/
def workerWrite (cfg : Setup X Y) (s : Handshake X Y) (worker : ℕ) (value : Y) :
    Option (Handshake X Y) :=
  match (s.pool.workers worker).running with
  | some slot => some { s with y := Function.update s.y (cfg.batch slot) value }
  | none => none

/-- `worker_loop` after `run_task_body`. -/
def workerDone (cfg : Setup X Y) (s : Handshake X Y) (worker : ℕ) (value : Y) :
    Option (Handshake X Y) :=
  match (s.pool.workers worker).running with
  | some slot =>
    let pool := { s.pool with
      workers :=
        Function.update s.pool.workers worker { s.pool.workers worker with running := none }
      doneCount := s.pool.doneCount + 1 }
    some (if s.pool.doneCount + 1 = cfg.numThreads then
        { s with
          pool := { pool with completed := (s.pool.workers worker).myGen }
          y := Function.update s.y (cfg.batch slot) ((s.pool.input.map (cfg.task slot)).getD value)
            }
      else { s with pool })
  | none => none

/-- A suspect is seen for the first time, or was served since. -/
def arm (s : Handshake X Y) (slot now : ℕ) : Handshake X Y :=
  { s with
    suspects := Function.update s.suspects slot
      (some { firstSeen := now, served := s.flagServed slot }) }

/-- The loop of `_watchdog_tick` over the pending slots. -/
def judge (s : Handshake X Y) (now slot : ℕ) (left dead : List ℕ) : Handshake X Y :=
  match s.suspects slot with
  | none => { s.arm slot now with watchdog := .judging now left dead }
  | some suspect =>
    if s.flagServed slot ≠ suspect.served then
      { s.arm slot now with watchdog := .judging now left dead }
    else if suspect.firstSeen + kDeadline ≤ now then
      { s with watchdog := .judging now left (dead ++ [slot]) }
    else { s with watchdog := .judging now left dead }

def decide (cfg : Setup X Y) (s : Handshake X Y) (ready done : ℕ → Bool) : Handshake X Y :=
  let pending := (List.range cfg.numSlots).filter fun slot => ready slot && done slot
  if pending = [] then { s with watchdog := .sleeping, suspects := fun _ => none }
  else
    { s with
      watchdog := .judging s.clock (cfg.setOrder pending) []
      suspects := fun slot => if slot ∈ pending then s.suspects slot else none }

/-- The next step of `_watchdog_main`. -/
def watchdogStep (cfg : Setup X Y) (s : Handshake X Y) : Handshake X Y :=
  match s.watchdog with
  | .sleeping => { s with watchdog := .readingReady 0 fun _ => false }
  | .readingReady slot ready =>
    if slot < cfg.numSlots then
      { s with watchdog := .readingReady (slot + 1) (Function.update ready slot (s.ready slot = 1))
        }
    else { s with watchdog := .readingDone 0 ready fun _ => false }
  | .readingDone slot ready done =>
    if slot < cfg.numSlots then
      { s with watchdog := .readingDone (slot + 1) ready (Function.update done slot (s.done slot = 0)) }
    else s.decide cfg ready done
  | .judging now (slot :: left) dead => s.judge now slot left dead
  | .judging _ [] dead =>
    { s with watchdog := if dead = [] then .sleeping else .poisoning dead dead }
  | .poisoning (slot :: left) dead =>
    { s with watchdog := .poisoning left dead, err := Function.update s.err slot 1 }
  | .poisoning [] dead => { s with watchdog := .releasing dead }
  | .releasing (slot :: left) =>
    { s with
      watchdog := .releasing left
      done := Function.update s.done slot 1
      suspects := Function.update s.suspects slot none }
  | .releasing [] => { s with watchdog := .sleeping }

/-- What an event does; `none` where it cannot happen. -/
def step (cfg : Setup X Y) (s : Handshake X Y) : Event X Y → Option (Handshake X Y)
  | .register slot => some (s.register slot)
  | .decode slot input => s.decode cfg slot input
  | .stream => s.streamStep
  | .coord => s.coordStep cfg
  | .workerTake worker => s.workerTake cfg worker
  | .workerWrite worker value => s.workerWrite cfg worker value
  | .workerDone worker value => s.workerDone cfg worker value
  | .stop => some { s with coordStop := true }
  | .watchdog => some (s.watchdogStep cfg)
  | .elapse duration => some { s with clock := s.clock + duration }

/-- The stream waits at the slot, and its wait is not over. -/
def Waits (s : Handshake X Y) (slot : ℕ) : Prop :=
  (∃ input, s.stream = .rung slot input) ∧ s.done slot < 1

/-- The slot whose doorbell the coordinator has taken, and not answered. -/
def serving (s : Handshake X Y) : Option ℕ :=
  match s.coord with
  | .taken slot | .syncing slot _ | .finished slot => some slot
  | _ => none

end Handshake

end FlagSync

end FreeToken
