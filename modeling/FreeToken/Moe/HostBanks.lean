import FreeToken.Checkpoint.Ftw

/-!
# Reading a file into a buffer

A read may raise, and it may be short.  Chunks are read by a pool of workers, so that their writes
land in any order.
-/

namespace FreeToken

namespace DiskLoad

/-- What `preadv` gives for a file: for a chunk, an offset and a length, how many bytes; `none` is
an error.  It is short as it likes, but it is empty only at the end of the file. -/
structure Kernel (data : Bytes) where
  preadv : ℕ → ℕ → ℕ → Option ℕ
  le_length : ∀ chunk off len n, preadv chunk off len = some n → n ≤ len
  le_file : ∀ chunk off len n, preadv chunk off len = some n → n ≤ data.length - off
  pos : ∀ chunk off len n, preadv chunk off len = some n → 0 < len → off < data.length → 0 < n

/-- The bytes of a write, and where they go. -/
abbrev Write := ℕ × Bytes

def writeBytes (m : Memory) (w : Write) :
  Memory := fun p => if w.1 ≤ p then (w.2[p - w.1]?).getD (m p) else m p

def land (m : Memory) (ws : List Write) : Memory := ws.foldl writeBytes m

/-- How a loader ends: it raises, or it returns with its writes.  A loop that does not end is stuck.
-/
inductive Loaded where
  | stuck
  | raised
  | returned (writes : List Write)

namespace Loaded

def push (w : Write) : Loaded → Loaded
  | returned writes => returned (w :: writes)
  | other => other

def both : Loaded → Loaded → Loaded
  | returned writes, returned writes' => returned (writes ++ writes')
  | raised, _ => raised
  | _, raised => raised
  | _, _ => stuck

/-- All chunks: an error in one of them is raised. -/
def all (chunks : List Loaded) : Loaded := chunks.foldr both (returned [])

end Loaded

def blk : ℕ := 4096

variable {data : Bytes} (k : Kernel data)

def readBytes (data : Bytes) (off n : ℕ) : Bytes := (data.drop off).take n

/-- A loop of reads at `off` into the `len` bytes at `dst`, until `need` bytes are there; `aligned`
says where it goes on. -/
def readLoop (aligned : ℕ → Bool) (chunk off dst len need : ℕ) : ℕ → ℕ → Loaded
  | 0, done => if done < need then .stuck else .returned []
  | fuel + 1, done =>
    if done < need then
      if aligned done then
        match k.preadv chunk (off + done) (len - done) with
        | none => .raised
        | some 0 => .raised
        | some got =>
          (readLoop aligned chunk off dst len need fuel (done + got)).push
            (dst + done, readBytes data (off + done) got)
      else .raised
    else .returned []

def preadvAll (chunk off dst len need fuel : ℕ) : Loaded :=
  readLoop k (fun done => done % blk == 0) chunk off dst len need fuel 0

/-- `_pread_into`, into a buffer of `total` bytes. -/
def preadInto (off total fuel : ℕ) : Loaded := readLoop k (fun _ => true) 0 off 0 total total fuel 0

/-! ### `read_range_into` -/

/-- A chunk of `read_range_into`; `stale` is what its bounce buffer holds. -/
def rangeChunk (base fileOffset nbytes destOffset chunk : ℕ) (stale : ℕ → Memory) (fuel i : ℕ) :
    Loaded :=
  let n := min chunk (nbytes - i)
  let src := fileOffset + i
  let dst := destOffset + i
  if src % blk = 0 ∧ (base + dst) % blk = 0 ∧ n % blk = 0 then preadvAll k i src dst n n fuel
  else
    let head := src % blk
    let span := (head + n + blk - 1) / blk * blk
    match preadvAll k i (src - head) 0 span (head + n) fuel with
    | .returned writes =>
      let bounce := land (stale i) writes
      .returned [(dst, (List.range n).map fun j => bounce (head + j))]
    | other => other

/-- `read_range_into`, into a buffer of `len` bytes at the address `base`. -/
def readRangeInto (len base fileOffset nbytes destOffset chunk : ℕ) (stale : ℕ → Memory)
    (fuel : ℕ) : Loaded :=
  if len < destOffset + nbytes then .raised
  -- `range` raises
  else if chunk = 0 then .raised
  else .all
    ((Ftw.stepRange nbytes chunk).map
    (rangeChunk k base fileOffset nbytes destOffset chunk stale fuel))

/-! ### `read_file_into` -/

/-- What a chunk of `read_file_into` asks for. -/
def fileWant (size len chunk o : ℕ) : ℕ :=
  min (min chunk (len - o)) ((size - o + blk - 1) / blk * blk)

/-- A chunk of `read_file_into`. -/
def fileChunk (len chunk o : ℕ) : Loaded :=
  -- how much was read is not looked at
  (k.preadv o o (fileWant data.length len chunk o)).elim .raised fun n =>
    .returned [(o, readBytes data o n)]

/-- `read_file_into`, into a buffer of `len` bytes. -/
def readFileInto (len chunk : ℕ) : Loaded :=
  if chunk = 0 then .raised
    else .all ((Ftw.stepRange data.length chunk).map (fileChunk k len chunk))

end DiskLoad

end FreeToken
