import FreeToken.Utils.Misc
import Mathlib.Data.List.Range

/-!
# The row store on disk

Rows are staged, each for a destination in memory, and a flush reads all of them.  Duplicate rows
are read once.  The reads go through bounce slots, one for each tag of the reader.

The engine thread submits reads and waits for them, the threads of a pool or the kernel read behind
it.  What happens behind it is a relation, so that reads are short, late and in any order.
-/

namespace FreeToken

namespace Ple

/-! ### Batched reads -/

def kPage : ℕ := 4096

/-- A row is at most a page, so it spans at most two. -/
def kSpanMax : ℕ := 2 * kPage

def kBatchEntries : ℕ := 64

/-- A read that was submitted.  The buffer is at `buf` in the bounce memory. -/
structure Req where
  tag : ℕ
  fd : ℕ
  buf : ℕ
  len : ℕ
  need : ℕ
  off : ℕ
deriving DecidableEq, Repr

/-- A buffer may have changed behind its first bytes. -/
def Scratched (r : Req) (done : ℕ) (m m' : Memory) : Prop :=
  ∀ a, ¬(r.buf + done ≤ a ∧ a < r.buf + r.len) → m' a = m a

/-- So many bytes have been read behind the first ones. -/
def Got (disk : ℕ → Bytes) (r : Req) (done got : ℕ) (m m' : Memory) : Prop :=
  done + got ≤ r.len ∧ Scratched r done m m' ∧
    ∀ i < got, (disk r.fd)[r.off + (done + i)]? = some (m' (r.buf + (done + i)))

/-- `BatchReader`.  `background` is what happens behind the engine thread, and the last three are
its calls: `waitOne` gives a tag or an error, and `drain` tells whether it has drained every read.
-/
structure BatchReader where
  State : Type
  capacity : ℕ
  bounce : State → Memory
  /-- The tags of the reads that are in flight. -/
  tags : State → List ℕ
  /-- There is room for one more read. -/
  room : State → Prop
  /-- No read is in flight. -/
  idle : State → Prop
  submit : State → Req → State
  background : State → State → Prop
  waitOne : State → Option ℕ → State → Prop
  drain : State → Bool → State → Prop

/-! ### A pool of threads -/

/-- `ThreadPoolBatchReader`, with what its threads are reading and how much of it they have.  A read
that is done is a tag and whether there was an error. -/
structure Pool where
  queue : List Req
  working : List (Req × ℕ)
  done : List (ℕ × Bool)
  inFlight : ℕ
  bounce : Memory

namespace Pool

def submit (s : Pool) (r : Req) : Pool :=
  { s with queue := s.queue ++ [r], inFlight := s.inFlight + 1 }

/-- `work`, of one of so many threads.  `pread_min` reads until it has the bytes that are needed. -/
inductive Work (disk : ℕ → Bytes) (workers : ℕ) : Pool → Pool → Prop where
  | take {s : Pool} {r : Req} {queue : List Req} (hqueue : s.queue = r :: queue)
      (hfree : s.working.length < workers) :
      Work disk workers s { s with queue, working := (r, 0) :: s.working }
  | pread {s : Pool} {front back : List (Req × ℕ)} {r : Req} {done got : ℕ} {bounce : Memory}
      (hworking : s.working = front ++ (r, done) :: back) (hmore : done < r.need)
      (hgot : Got disk r done got s.bounce bounce) :
      Work disk workers s { s with working := front ++ (r, done + got) :: back, bounce }
  | finish {s : Pool} {front back : List (Req × ℕ)} {r : Req} {done : ℕ}
      (hworking : s.working = front ++ (r, done) :: back) (henough : r.need ≤ done) :
      Work disk workers s { s with working := front ++ back, done := s.done ++ [(r.tag, false)] }
  | fail {s : Pool} {front back : List (Req × ℕ)} {r : Req} {done : ℕ} {bounce : Memory}
      (hworking : s.working = front ++ (r, done) :: back) (hmore : done < r.need)
      (hscratched : Scratched r done s.bounce bounce) :
      Work disk workers s { s with working := front ++ back, done := s.done ++ [(r.tag, true)], bounce }

inductive WaitOne (disk : ℕ → Bytes) (workers : ℕ) : Pool → Option ℕ → Pool → Prop where
  | work {s s1 s2 : Pool} {out : Option ℕ} (h : Work disk workers s s1)
      (hrest : WaitOne disk workers s1 out s2) :
      WaitOne disk workers s out s2
  | pop {s : Pool} {tag : ℕ} {error : Bool} {done : List (ℕ × Bool)}
      (hdone : s.done = (tag, error) :: done) :
      WaitOne disk workers s (if error then none else some tag)
        { s with done, inFlight := s.inFlight - 1 }

inductive Drain (disk : ℕ → Bytes) (workers : ℕ) : Pool → Bool → Pool → Prop where
  | work {s s1 s2 : Pool} {all : Bool} (h : Work disk workers s s1)
      (hrest : Drain disk workers s1 all s2) :
      Drain disk workers s all s2
  | clear {s : Pool} (hall : s.done.length = s.inFlight) :
      Drain disk workers s true { s with done := [], inFlight := 0 }

def reader (disk : ℕ → Bytes) (workers : ℕ) : BatchReader where
  State := Pool
  capacity := kBatchEntries
  bounce := Pool.bounce
  tags s := s.queue.map Req.tag ++ s.working.map (fun w => w.1.tag) ++ s.done.map Prod.fst
  room _ := True
  idle s := s.queue = [] ∧ s.working = [] ∧ s.done = [] ∧ s.inFlight = 0
  submit := submit
  background := Work disk workers
  waitOne := WaitOne disk workers
  drain := Drain disk workers

end Pool

/-! ### An io_uring -/

/-- `IoUringBatchReader`: the reads that the kernel has not been told of, those that it runs, and
the completions.  A completion is a tag and the number of bytes, or none with an error. -/
structure Ring where
  queue : List Req
  toSubmit : ℕ
  running : List Req
  completions : List (ℕ × Option ℕ)
  inFlight : ℕ
  lens : ℕ → ℕ
  bounce : Memory

namespace Ring

def submit (s : Ring) (r : Req) : Ring :=
  { s with
    queue := s.queue ++ [r]
    toSubmit := s.toSubmit + 1
    inFlight := s.inFlight + 1
    lens := fun tag => if tag = r.tag then r.need else s.lens tag }

/-- `io_uring_enter`, which takes some of the reads. -/
def enter (s : Ring) (k : ℕ) : Ring :=
  { s with queue := s.queue.drop k, toSubmit := s.toSubmit - k, running := s.queue.take k ++
    s.running }

/-- The kernel.  One read is one operation, and it may be short. -/
inductive Kernel (disk : ℕ → Bytes) : Ring → Ring → Prop where
  | read {s : Ring} {front back : List Req} {r : Req} {bounce : Memory}
      (hrunning : s.running = front ++ r :: back)
      (hscratched : Scratched r 0 s.bounce bounce) : Kernel disk s { s with bounce }
  | complete {s : Ring} {front back : List Req} {r : Req} {res : ℕ} {bounce : Memory}
      (hrunning : s.running = front ++ r :: back) (hgot : Got disk r 0 res s.bounce bounce) :
      Kernel disk s { s with
        running := front ++ back
        completions := s.completions ++ [(r.tag, some res)]
        bounce := bounce }
  | fail {s : Ring} {front back : List Req} {r : Req} {bounce : Memory}
      (hrunning : s.running = front ++ r :: back) (hscratched : Scratched r 0 s.bounce bounce) :
      Kernel disk s { s with
        running := front ++ back
        completions := s.completions ++ [(r.tag, none)]
        bounce := bounce }

/-- What `wait_one` makes of a completion. -/
def outcome (lens : ℕ → ℕ) (tag : ℕ) (res : Option ℕ) : Option ℕ :=
  res.bind fun res => if res < lens tag then none else some tag

/-- `wait_one`.  A call that a signal interrupts is made again. -/
inductive WaitOne (disk : ℕ → Bytes) : Ring → Option ℕ → Ring → Prop where
  | kernel {s s1 s2 : Ring} {out : Option ℕ} (h : Kernel disk s s1)
      (hrest : WaitOne disk s1 out s2) : WaitOne disk s out s2
  | pop {s : Ring} {tag : ℕ} {res : Option ℕ} {completions : List (ℕ × Option ℕ)}
      (hcompletions : s.completions = (tag, res) :: completions) :
      WaitOne disk s (outcome s.lens tag res) { s with completions, inFlight := s.inFlight - 1 }
  | enter {s s2 : Ring} {k : ℕ} {out : Option ℕ} (hnone : s.completions = []) (hk : k ≤ s.toSubmit)
      (hrest : WaitOne disk (s.enter k) out s2) : WaitOne disk s out s2
  | enterFailed {s : Ring} (hnone : s.completions = []) : WaitOne disk s none s

/-- `drain`.  It gives up when `io_uring_enter` fails. -/
inductive Drain (disk : ℕ → Bytes) : Ring → Bool → Ring → Prop where
  | kernel {s s1 s2 : Ring} {all : Bool} (h : Kernel disk s s1) (hrest : Drain disk s1 all s2) :
      Drain disk s all s2
  | empty {s : Ring} (hnone : s.inFlight = 0) : Drain disk s true s
  | pop {s s2 : Ring} {completion : ℕ × Option ℕ} {completions : List (ℕ × Option ℕ)} {all : Bool}
      (hsome : 0 < s.inFlight) (hcompletions : s.completions = completion :: completions)
      (hrest : Drain disk { s with completions, inFlight := s.inFlight - 1 } all s2) :
      Drain disk s all s2
  | enter {s s2 : Ring} {k : ℕ} {all : Bool} (hsome : 0 < s.inFlight) (hnone : s.completions = [])
      (hk : k ≤ s.toSubmit) (hrest : Drain disk (s.enter k) all s2) : Drain disk s all s2
  | enterFailed {s : Ring} (hsome : 0 < s.inFlight) (hnone : s.completions = []) :
      Drain disk s false s

/-- The ring as a reader, with so many entries. -/
def reader (disk : ℕ → Bytes) (entries : ℕ) : BatchReader where
  State := Ring
  capacity := entries
  bounce := Ring.bounce
  tags s := s.queue.map Req.tag ++ s.running.map Req.tag ++ s.completions.map Prod.fst
  room s := s.queue.length < entries
  idle s := s.queue = [] ∧ s.toSubmit = 0 ∧ s.running = [] ∧ s.completions = [] ∧ s.inFlight = 0
  submit := submit
  background := Kernel disk
  waitOne := WaitOne disk
  drain := Drain disk

end Ring

/-! ### The store -/

/-- A file, and whether it is read directly. -/
structure TableFile where
  data : Bytes
  direct : Bool

structure Extent where
  file : ℕ
  base : ℕ

/-- The files of a store, by their numbers. -/
def diskOf (files : List TableFile) (fd : ℕ) : Bytes := ((files[fd]?).map TableFile.data).getD []

/-- The geometry of a `PleStore`, with what its constructor checks; that the heads address rows that
are there is checked before. -/
structure PleStore where
  files : List TableFile
  extents : List Extent
  rowsPerExtent : ℕ
  rowBytes : ℕ
  rowStride : ℕ
  mult0 : BitVec 64
  mult1 : BitVec 64
  mult2 : BitVec 64
  sizes : List ℕ
  offsets : List ℕ
  eos : BitVec 64
  length_offsets : sizes.length = offsets.length
  rowBytes_le : rowBytes ≤ kPage
  extents_fit : ∀ e ∈ extents, ∃ f, files[e.file]? = some f ∧
    e.base + (rowsPerExtent - 1) * rowStride + rowBytes ≤ f.data.length
  heads_fit : ∀ h < sizes.length, 0 < sizes.getD h 0 ∧
    offsets.getD h 0 + sizes.getD h 0 ≤ extents.length * rowsPerExtent

/-- What is to be read: an aligned span of a file, the row in it, and where the row goes. -/
structure Pending where
  file : ℕ
  readOff : ℕ
  readLen : ℕ
  rowOff : ℕ
  dsts : List ℕ

/-- `pending_` and `pending_index_`. -/
structure Queue where
  pending : List Pending
  index : ℤ → Option ℕ

def Queue.empty : Queue := ⟨[], fun _ => none⟩

def wrapMul (a b : BitVec 64) : BitVec 64 := a * b

def posMod (v m : ℤ) : ℤ :=
  let r := v.tmod m
  if r < 0 then r + m else r

namespace PleStore

variable (s : PleStore)

/-- The rows of the token `w2` behind `w0` and `w1`. -/
def hashRows (w0 w1 w2 : BitVec 64) : List ℤ :=
  let prev1 := w1
  let prev2 := if prev1 = s.eos then s.eos else w0
  let bigram := wrapMul w2 s.mult0 ^^^ wrapMul prev1 s.mult1
  let trigram := bigram ^^^ wrapMul prev2 s.mult2
  let half := s.sizes.length / 2
  (List.range s.sizes.length).map fun h =>
    posMod (if h < half then bigram else trigram).toInt (s.sizes.getD h 0) + s.offsets.getD h 0

/-- The place of a row: its extent, and the offset in the file. -/
def rowPlace (row : ℤ) : Option (ℕ × ℕ) := do
  let ext ← s.extents[(row / s.rowsPerExtent).toNat]?
  return (ext.file, ext.base + (row % s.rowsPerExtent).toNat * s.rowStride)

/-- A new entry of `pending_`. -/
def newPending (file : TableFile) (fd off dst : ℕ) : Pending :=
  if file.direct then
    let readOff := off / kPage * kPage
    ⟨fd, readOff, (off + s.rowBytes + kPage - 1) / kPage * kPage - readOff, off - readOff, [dst]⟩
  else ⟨fd, off, s.rowBytes, 0, [dst]⟩

def requestRow (q : Queue) (request : ℤ × ℕ) : Option Queue :=
  match q.index request.1 with
  | some k =>
    some { q with pending := q.pending.modify k fun p => { p with dsts := p.dsts ++ [request.2] } }
  | none => do
    let (fd, off) ← s.rowPlace request.1
    let file ← s.files[fd]?
    return ⟨q.pending ++ [s.newPending file fd off request.2], Function.update q.index request.1
      (some q.pending.length)⟩

/-- The requests of a `stage`: the rows of every token, with their destinations. -/
def requests (tokens : List (BitVec 64)) (staging : ℕ) : List (ℤ × ℕ) :=
  (List.range (tokens.length - 2)).flatMap fun i =>
    let rows := s.hashRows (tokens.getD i 0) (tokens.getD (i + 1) 0) (tokens.getD (i + 2) 0)
    (List.range s.sizes.length).map fun h =>
      (rows.getD h 0, staging + (i * s.sizes.length + h) * s.rowBytes)

def stage (q : Queue) (tokens : List (BitVec 64)) (staging : ℕ) : Option Queue :=
  (s.requests tokens staging).foldlM s.requestRow q

/-- The request of `submit_slot`. -/
def slotReq (p : Pending) (tag : ℕ) : Req :=
  ⟨tag, p.file, tag * kSpanMax, p.readLen, p.rowOff + s.rowBytes, p.readOff⟩

end PleStore

/-! ### Flushing -/

/-- Where `flush_pending` is. -/
inductive Phase where
  /-- The first reads are submitted. -/
  | fill (tag : ℕ)
  /-- A read is waited for. -/
  | wait
  /-- The row of a slot is copied. -/
  | copy (tag : ℕ) (dsts : List ℕ)
  /-- There was an error. -/
  | failed
deriving DecidableEq, Repr

/-- The variables of `flush_pending`. -/
structure Flush where
  next : ℕ
  completed : ℕ
  tagPending : ℕ → ℕ
  phase : Phase

/-- A store at work.  `staged` are the requests since the last flush, for the record. -/
structure Sys (B : BatchReader) where
  queue : Queue
  reader : B.State
  mem : Memory
  flush : Option Flush
  staged : List (ℤ × ℕ)

inductive Label where
  | stage
  | begin
  | submit (tag : ℕ)
  | filled
  | completion (tag : ℕ)
  | copy (tag dst : ℕ)
  | copied
  | failed
  | drained (all : Bool)
  | flushed (ok : Bool)
  | background
deriving DecidableEq, Repr

def memcpy (mem : Memory) (dst : ℕ) (src : Memory) (off n : ℕ) : Memory :=
  fun a => if dst ≤ a ∧ a < dst + n then src (off + (a - dst)) else mem a

/-- Two destinations have no byte in common. -/
def Apart (n dst dst' : ℕ) : Prop := dst + n ≤ dst' ∨ dst' + n ≤ dst

def submitSlot (s : PleStore) {B : BatchReader} (sys : Sys B) (f : Flush) (p : Pending)
    (tag completed : ℕ) (phase : Phase) :
    Sys B :=
  { sys with
    reader := B.submit sys.reader (s.slotReq p tag)
    flush := some ⟨f.next + 1, completed, Function.update f.tagPending tag f.next, phase⟩ }

/-- A step of the engine thread, or one behind it. -/
inductive Step (s : PleStore) (B : BatchReader) : Sys B → Label → Sys B → Prop where
  /-- The caller stages into memory that nothing else was staged into. -/
  | stage {sys : Sys B} {tokens : List (BitVec 64)} {staging : ℕ} {queue : Queue}
      (hflush : sys.flush = none) (hqueue : s.stage sys.queue tokens staging = some queue)
      (hapart : ∀ r ∈ s.requests tokens staging, ∀ r' ∈ sys.staged, Apart s.rowBytes r.2 r'.2) :
      Step s B sys .stage { sys with queue, staged := sys.staged ++ s.requests tokens staging }
  | flushNone {sys : Sys B} (hflush : sys.flush = none) (hnone : sys.queue.pending = []) :
      Step s B sys (.flushed true) { sys with staged := [] }
  | begin {sys : Sys B} (hflush : sys.flush = none) (hsome : sys.queue.pending ≠ []) :
      Step s B sys .begin { sys with flush := some ⟨0, 0, fun _ => 0, .fill 0⟩ }
  | fill {sys : Sys B} {f : Flush} {tag : ℕ} {p : Pending} (hflush : sys.flush = some f)
      (hphase : f.phase = .fill tag)
      (hmore : tag < min B.capacity sys.queue.pending.length)
      (hp : sys.queue.pending[f.next]? = some p) :
      Step s B sys (.submit tag) (submitSlot s sys f p tag f.completed (.fill (tag + 1)))
  | filled {sys : Sys B} {f : Flush} {tag : ℕ} (hflush : sys.flush = some f)
      (hphase : f.phase = .fill tag) (hall : ¬tag < min B.capacity sys.queue.pending.length) :
      Step s B sys .filled { sys with flush := some { f with phase := .wait } }
  | completion {sys : Sys B} {f : Flush} {tag : ℕ} {reader : B.State} {p : Pending}
      (hflush : sys.flush = some f)
      (hphase : f.phase = .wait) (hmore : f.completed < sys.queue.pending.length)
      (hwait : B.waitOne sys.reader (some tag) reader)
      (hp : sys.queue.pending[f.tagPending tag]? = some p) :
      Step s B sys (.completion tag)
        { sys with reader, flush := some { f with phase := .copy tag p.dsts } }
  | waitFailed {sys : Sys B} {f : Flush} {reader : B.State} (hflush : sys.flush = some f)
      (hphase : f.phase = .wait)
      (hmore : f.completed < sys.queue.pending.length) (hwait : B.waitOne sys.reader none reader) :
      Step s B sys .failed { sys with reader, flush := some { f with phase := .failed } }
  | copy {sys : Sys B} {f : Flush} {tag dst : ℕ} {dsts : List ℕ} {p : Pending}
      (hflush : sys.flush = some f)
      (hphase : f.phase = .copy tag (dst :: dsts))
      (hp : sys.queue.pending[f.tagPending tag]? = some p) :
      Step s B sys (.copy tag dst) { sys with
        mem := memcpy sys.mem dst (B.bounce sys.reader) (tag * kSpanMax + p.rowOff) s.rowBytes
        flush := some { f with phase := .copy tag dsts } }
  | refill {sys : Sys B} {f : Flush} {tag : ℕ} {p : Pending} (hflush : sys.flush = some f)
      (hphase : f.phase = .copy tag []) (hmore : f.next < sys.queue.pending.length)
      (hp : sys.queue.pending[f.next]? = some p) :
      Step s B sys (.submit tag) (submitSlot s sys f p tag (f.completed + 1) .wait)
  | copied {sys : Sys B} {f : Flush} {tag : ℕ} (hflush : sys.flush = some f)
      (hphase : f.phase = .copy tag []) (hlast : ¬f.next < sys.queue.pending.length) :
      Step s B sys .copied
        { sys with flush := some { f with completed := f.completed + 1, phase := .wait } }
  | finish {sys : Sys B} {f : Flush} (hflush : sys.flush = some f) (hphase : f.phase = .wait)
      (hall : ¬f.completed < sys.queue.pending.length) :
      Step s B sys (.flushed true) { sys with queue := Queue.empty, flush := none, staged := [] }
  /-- The reads in flight are drained, and the error is reported. -/
  | drain {sys : Sys B} {f : Flush} {reader : B.State} {all : Bool} (hflush : sys.flush = some f)
      (hphase : f.phase = .failed) (hdrain : B.drain sys.reader all reader) :
      Step s B sys (.drained all) { sys with reader, queue := Queue.empty, flush := none, staged :=
        [] }
  | background {sys : Sys B} {reader : B.State} (h : B.background sys.reader reader) :
      Step s B sys .background { sys with reader }

inductive Run (s : PleStore) (B : BatchReader) : Sys B → List Label → Sys B → Prop where
  | nil {sys : Sys B} : Run s B sys [] sys
  | snoc {sys sys1 sys2 : Sys B} {labels : List Label} {label : Label} (h : Run s B sys labels sys1)
      (hstep : Step s B sys1 label sys2) : Run s B sys (labels ++ [label]) sys2

/-- Nothing is staged, no read is in flight and no flush is running. -/
structure Sys.Fresh {B : BatchReader} (sys : Sys B) : Prop where
  queue : sys.queue = Queue.empty
  idle : B.idle sys.reader
  flush : sys.flush = none
  staged : sys.staged = []

end Ple

end FreeToken
