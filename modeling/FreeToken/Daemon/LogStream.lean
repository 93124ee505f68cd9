import FreeToken.Utils.Text

/-!
# The log stream

`_log_stream` sends the records of the ring to a client: first those that are there, then each new
one.  Producers append from threads of their own, and put a callback to the event loop; the callback
puts the record into the queue of the stream.  The ring evicts the oldest records, and calls its
subscribers outside its lock.
-/

namespace FreeToken

namespace LogStream

/-! ### The log ring -/

/-- The kind of a record: a finalized line, a redraw of a progress bar, or a note of the daemon. -/
inductive RecordKind where
  | line
  | progress
  | event
deriving DecidableEq

structure Record where
  seq : ℕ
  ts : ℤ
  kind : RecordKind
  text : Text
deriving DecidableEq

/-- `LogRing`, without its subscribers. -/
structure LogRing where
  capacity : ℕ
  buf : List Record := []
  next : ℕ := 0

namespace LogRing

/-- What `append` does under the lock. -/
def append (ring : LogRing) (text : Text) (kind : RecordKind) (ts : ℤ) : Record × LogRing :=
  let record : Record := { seq := ring.next, ts, kind, text }
  let buf := ring.buf ++ [record]
  (record, { ring with buf := buf.drop (buf.length - ring.capacity), next := ring.next + 1 })

def since (ring : LogRing) (cursor : ℤ) : List Record × ℕ :=
  (ring.buf.filter fun record => cursor ≤ record.seq, ring.next)

end LogRing

/-! ### A client's stream -/

/-- What a client is sent, except for the heartbeat. -/
inductive Frame where
  | record (record : Record)
  | gap (dropped : ℤ) (fromSeq toSeq : Option ℤ)
deriving DecidableEq

/-- The records that the queue has lost since the last gap. -/
structure Drop where
  n : ℕ := 0
  fromSeq : Option ℕ := none
  toSeq : Option ℕ := none
deriving DecidableEq

def Drop.add (drop : Drop) (old : Record) : Drop :=
  { n := drop.n + 1, fromSeq := some (drop.fromSeq.getD old.seq), toSeq := some old.seq }

/-- `_sse_gap`. -/
def Drop.toFrame (drop : Drop) : Frame :=
  .gap drop.n (drop.fromSeq.map Nat.cast) (drop.toSeq.map Nat.cast)

inductive Phase where
  /-- It is subscribed, and has not read the ring. -/
  | opening
  /-- `gen` has not started. -/
  | starting (backlog : List Record) (cursor : ℕ)
  | replaying (left : List Record) (cursor : ℕ)
  /-- `await q.get()`, or `await request.is_disconnected()` before it. -/
  | waiting
  /-- `q.get()` has taken a record. -/
  | got (record : Record)
  /-- The gap before the record is being sent. -/
  | announced (record : Record)
  | closed
deriving DecidableEq

/-- `maxsize`. -/
def kQueueSize : ℕ := 1000

/-- A stream, with the callbacks on their way to it. -/
structure Stream where
  since : ℤ
  phase : Phase := .opening
  boundary : ℕ := 0
  lastSeq : ℤ := 0
  queue : List Record := []
  drop : Drop := {}
  /-- Appended records for which `push` has still to be called. -/
  pushes : List Record := []
  /-- The `_put`s that `push` has given to the event loop. -/
  callbacks : List Record := []
  out : List Frame := []
deriving DecidableEq

namespace Stream

/-- The `since` of the stream: a native reconnect says what it has seen last. -/
def startCursor (since : ℤ) (lastEventId : Option ℕ) : ℤ :=
  lastEventId.elim since fun seq => seq + 1

/-- `append` calls the subscribers that it has found under the lock. -/
def subscribed (st : Stream) : Bool := st.phase ≠ .closed

def onAppend (st : Stream) (record : Record) : Stream :=
  if st.subscribed then { st with pushes := st.pushes ++ [record] } else st

/-- `push`: `loop.call_soon_threadsafe(_put)`. -/
def push (st : Stream) (record : Record) : Option Stream :=
  if record ∈ st.pushes then
    some { st with pushes := st.pushes.erase record, callbacks := st.callbacks ++ [record] }
  else none

/-- The queue after `q.put_nowait`, with the oldest record dropped where it is full. -/
def enqueue (st : Stream) (record : Record) : Stream :=
  match st.queue with
  | old :: queue =>
    if kQueueSize ≤ st.queue.length then { st with queue := queue ++ [record], drop := st.drop.add old }
    else { st with queue := st.queue ++ [record] }
  | [] => { st with queue := [record] }

/-- `_put`.  The handler that opens the stream does not await, so that no callback runs before the
boundary is set. -/
def put (st : Stream) : Option Stream :=
  match st.callbacks with
  | record :: callbacks =>
    if st.phase = .opening then none
    else
      let st := { st with callbacks }
      some (if record.seq < st.boundary then st else st.enqueue record)
  | [] => none

/-- The backlog is read and the boundary set. -/
def snapshot (st : Stream) (ring : LogRing) : Option Stream :=
  if st.phase = .opening then
    let (backlog, cursor) := ring.since st.since
    some { st with phase := .starting backlog cursor, boundary := cursor }
  else none

/-- `gen` begins: the prefix that the ring has evicted is announced. -/
def start (st : Stream) : Option Stream :=
  match st.phase with
  | .starting backlog cursor =>
    let oldest : ℤ := (backlog.head?.map Record.seq).getD cursor
    let st := { st with phase := .replaying backlog cursor }
    some (if st.since < oldest then
      { st with out := st.out ++ [.gap (oldest - st.since) (some st.since) (some (oldest - 1))] }
    else st)
  | _ => none

/-- A record of the backlog is sent, or its end is reached. -/
def replay (st : Stream) : Option Stream :=
  match st.phase with
  | .replaying (record :: left) cursor =>
    some { st with phase := .replaying left cursor, out := st.out ++ [.record record] }
  | .replaying [] cursor => some { st with phase := .waiting, lastSeq := cursor - 1 }
  | _ => none

/-- `q.get()` takes a record. -/
def take (st : Stream) : Option Stream :=
  if st.phase = .waiting then
    match st.queue with
    | record :: queue => some { st with phase := .got record, queue }
    | [] => none
  else none

def send (st : Stream) (record : Record) : Stream :=
  { st with phase := .waiting, lastSeq := record.seq, out := st.out ++ [.record record] }

/-- `gen` goes on with the record that it was given. -/
def process (st : Stream) : Option Stream :=
  match st.phase with
  | .got record =>
    some (if (record.seq : ℤ) ≤ st.lastSeq then { st with phase := .waiting }
    else if st.drop.n ≠ 0 then
      { st with phase := .announced record, drop := {}, out := st.out ++ [st.drop.toFrame] }
    else st.send record)
  | _ => none

def deliver (st : Stream) : Option Stream :=
  match st.phase with
  | .announced record => some (st.send record)
  | _ => none

def close (st : Stream) : Option Stream :=
  if st.subscribed then some { st with phase := .closed } else none

end Stream

/-- The ring and the streams that were opened. -/
structure System where
  ring : LogRing
  streams : ℕ → Option Stream := fun _ => none
  /-- All records that were appended; only statements read them. -/
  history : List Record := []

inductive Event where
  | append (text : Text) (kind : RecordKind) (ts : ℤ)
  | openStream (id : ℕ) (since : ℤ) (lastEventId : Option ℕ)
  | snapshot (id : ℕ)
  | push (id : ℕ) (record : Record)
  | put (id : ℕ)
  | start (id : ℕ)
  | replay (id : ℕ)
  | take (id : ℕ)
  | process (id : ℕ)
  | deliver (id : ℕ)
  | close (id : ℕ)

namespace System

def onStream (s : System) (id : ℕ) (f : Stream → Option Stream) : Option System :=
  ((s.streams id).bind f).map fun st => { s with streams := Function.update s.streams id (some st) }

/-- What an event does; `none` where it cannot happen. -/
def step (s : System) : Event → Option System
  | .append text kind ts =>
    let (record, ring) := s.ring.append text kind ts
    some { ring
           streams := fun id => (s.streams id).map fun st => st.onAppend record
           history := s.history ++ [record] }
  | .openStream id since lastEventId =>
    if s.streams id = none then
      some { s with
        streams :=
          Function.update s.streams id (some { since := Stream.startCursor since lastEventId }) }
    else none
  | .snapshot id => s.onStream id fun st => st.snapshot s.ring
  | .push id record => s.onStream id fun st => st.push record
  | .put id => s.onStream id Stream.put
  | .start id => s.onStream id Stream.start
  | .replay id => s.onStream id Stream.replay
  | .take id => s.onStream id Stream.take
  | .process id => s.onStream id Stream.process
  | .deliver id => s.onStream id Stream.deliver
  | .close id => s.onStream id Stream.close

end System

/-! ### Honesty -/

/-- A sequence number is accounted for by the frame. -/
def Frame.covers (m : ℕ) : Frame → Bool
  | .record sent => sent.seq = m
  | .gap _ fromSeq toSeq => fromSeq.any (· ≤ (m : ℤ)) && toSeq.any ((m : ℤ) ≤ ·)

/-- How often a sequence number is accounted for. -/
def tally (out : List Frame) (m : ℕ) : ℕ := out.countP (Frame.covers m)

def records : List Frame → List Record
  | [] => []
  | .record record :: out => record :: records out
  | .gap .. :: out => records out

/-- The next `_put` drops a record. -/
def Stream.Overflows (st : Stream) : Prop :=
  kQueueSize ≤ st.queue.length ∧ ∃ record rest, st.callbacks = record :: rest ∧
    st.boundary ≤ record.seq

/-- All that was appended has reached the client. -/
def Stream.CaughtUp (st : Stream) : Prop :=
  st.phase = .waiting ∧ st.pushes = [] ∧ st.callbacks = [] ∧ st.queue = []

structure GapHonest (s : System) (st : Stream) : Prop where
  /-- Records come in order, and none twice. -/
  increasing : (records st.out).Pairwise fun a b => a.seq < b.seq
  /-- They are the ones that were appended. -/
  genuine : ∀ record ∈ records st.out, s.history[record.seq]? = some record
  /-- Nothing is accounted for twice. -/
  once : ∀ m : ℕ, st.since ≤ m → tally st.out m ≤ 1
  /-- What comes before a record that is there is accounted for. -/
  complete : ∀ record ∈ records st.out, ∀ m : ℕ, st.since ≤ m → m ≤ record.seq → tally st.out m = 1
  /-- A client that has caught up has it all. -/
  caughtUp : st.CaughtUp → ∀ m : ℕ, st.since ≤ m → m < s.ring.next → tally st.out m = 1
  /-- A gap says how many records it stands for. -/
  counted : ∀ dropped fromSeq toSeq, Frame.gap dropped (some fromSeq) (some toSeq) ∈ st.out →
    dropped = toSeq - fromSeq + 1

/-- Where no producer overtakes another on the way to the stream `id` while it is open, and its
queue does not overflow at the wrong moment. -/
def Orderly (id : ℕ) (s : System) : Event → Prop
  -- earlier records that the backlog does not have are pushed first
  | .push id₀ record => id₀ = id → ∀ st, s.streams id = some st → st.phase ≠ .opening →
    st.subscribed →
    ∀ earlier ∈ st.pushes, st.boundary ≤ earlier.seq → record.seq ≤ earlier.seq
  -- records from both sides of the one that `gen` has taken are not dropped in one gap
  | .put id₀ => id₀ = id → ∀ st, s.streams id = some st → st.Overflows → ∀ record, st.phase =
    .got record →
    ∀ fromSeq, st.drop.fromSeq = some fromSeq → record.seq < fromSeq
  | _ => True

end LogStream

end FreeToken
