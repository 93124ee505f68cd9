import FreeToken.Utils.Misc
import FreeToken.Utils.Text
import Mathlib.Data.List.Sort

/-!
# The FreeToken Weight checkpoint

All tensors are one region of bytes, each at an aligned offset, and the region is cut into shard
files.  A file is a list of bytes and a directory maps names to files.
-/

namespace FreeToken

abbrev Dir := Text → Option Bytes

namespace Ftw

def align : ℕ := 4096

def alignUp (n : ℕ) : ℕ := (n + align - 1) / align * align

def formatTag : Text := "freetoken_weight".toList

def shardFmt (idx : ℕ) : Text :=
  let digits := Nat.toDigits 10 idx
  "freetoken-".toList ++ (List.replicate (5 - digits.length) '0' ++ digits) ++ ".ftw".toList

/-- `math.prod`. -/
def prod : List ℕ → ℕ
  | [] => 1
  | n :: shape => n * prod shape

/-- A tensor with its bytes; `elsize` are the sizes of the types. -/
structure Tensor (elsize : Text → ℕ) where
  name : Text
  kind : Text
  dtype : Text
  shape : List ℕ
  raw : Bytes
  length_raw : raw.length = prod shape * elsize dtype

/-- An entry of `tensors`. -/
structure TensorEntry where
  name : Text
  kind : Text
  dtype : Text
  shape : List ℕ
  globalOff : ℕ
  nbytes : ℕ
deriving DecidableEq, Repr

/-- An entry of `shards`. -/
structure Shard where
  file : Text
  globalOff : ℕ
  nbytes : ℕ
deriving DecidableEq, Repr

/-- The index of a checkpoint, with what the reader uses of its meta data. -/
structure Index where
  format : Text
  shardLimit : ℕ
  totalBytes : ℕ
  tensors : List TensorEntry
  shards : List Shard
  expertBankNumLayers : Option ℕ
deriving DecidableEq, Repr

/-! ### Writing -/

/-- `FTWWriter`.  The file that is open is known by its name. -/
structure FTWWriter where
  shardLimit : ℕ
  tensors : List TensorEntry
  shards : List Shard
  global : ℕ
  f : Option Text
  shardIdx : ℤ
  shardStart : ℕ
  cur : ℕ
  dir : Dir

namespace FTWWriter

/-- `FTWWriter`, of a directory that may hold files already. -/
def init (dir : Dir) (shardLimit : ℕ) : Option FTWWriter :=
  if shardLimit % align = 0 then some ⟨shardLimit, [], [], 0, none, -1, 0, 0, dir⟩ else none

/-- The shards with the one that is open. -/
def closed (w : FTWWriter) : List Shard :=
  if w.f.isSome then w.shards ++ [⟨shardFmt w.shardIdx.toNat, w.shardStart, w.cur⟩] else w.shards

def roll (w : FTWWriter) : FTWWriter :=
  let file := shardFmt (w.shardIdx + 1).toNat
  { w with
    shards := w.closed
    shardIdx := w.shardIdx + 1
    shardStart := w.global
    cur := 0
    f := some file
    dir := Function.update w.dir file (some []) }

/-- `self._f.write`, with the counts. -/
def write (w : FTWWriter) (data : Bytes) : FTWWriter :=
  { w with
    dir := fun file => if w.f = some file then (w.dir file).map (· ++ data) else w.dir file
    cur := w.cur + data.length
    global := w.global + data.length }

/-- The loop of `_write_raw`, for so many rounds. -/
def writeLoop : ℕ → Bytes → FTWWriter → Option FTWWriter
  | 0, data, w => if data = [] then some w else none
  | rounds + 1, data, w =>
    if data = [] then some w else
      let w := if w.cur = w.shardLimit then w.roll else w
      let take := min data.length (w.shardLimit - w.cur)
      writeLoop rounds (data.drop take) (w.write (data.take take))

def writeRaw (w : FTWWriter) (data : Bytes) : Option FTWWriter :=
  writeLoop data.length data (if w.f.isNone then w.roll else w)

variable {elsize : Text → ℕ}

def addTensor (w : FTWWriter) (t : Tensor elsize) : Option FTWWriter := do
  let nbytes := t.raw.length
  let w := if w.f.isNone ∨ nbytes ≤ w.shardLimit ∧ w.shardLimit < w.cur + nbytes then w.roll else w
  let globalOff := w.global
  if globalOff % align = 0 then
    let w ← w.writeRaw t.raw
    let w := { w with tensors := w.tensors ++
        [⟨t.name, t.kind, t.dtype, t.shape, globalOff, nbytes⟩] }
    let pad := alignUp w.global - w.global
    if pad ≠ 0 then w.writeRaw (List.replicate pad 0) else some w
  else none

def finalize (w : FTWWriter) (expertBankNumLayers : Option ℕ) : Index :=
  ⟨formatTag, w.shardLimit, w.global, w.tensors, w.closed, expertBankNumLayers⟩

end FTWWriter

/-- A checkpoint of tensors: the index and the files. -/
def writeFtw {elsize : Text → ℕ} (dir : Dir) (shardLimit : ℕ) (tensors : List (Tensor elsize))
    (expertBankNumLayers : Option ℕ) : Option (Index × Dir) := do
  let w ← FTWWriter.init dir shardLimit
  let w ← tensors.foldlM FTWWriter.addTensor w
  return (w.finalize expertBankNumLayers, w.dir)

/-! ### Reading -/

structure Piece where
  file : Text
  fileOff : ℕ
  destOff : ℕ
  length : ℕ
deriving DecidableEq, Repr

structure FTWReader where
  index : Index
  shards : List Shard
  dir : Dir

namespace FTWReader

/-- `FTWReader`, with the shards in the order of their offsets. -/
def init (index : Index) (dir : Dir) : Option FTWReader :=
  if index.format = formatTag then
    some ⟨index, index.shards.insertionSort fun a b => a.globalOff ≤ b.globalOff, dir⟩
  else none

/-- The loop of `_pieces`. -/
def piecesLoop : List Shard → ℕ → ℕ → ℕ → Option (List Piece)
  | [], _, remaining, _ => if remaining = 0 then some [] else none
  | sh :: shards, destOff, remaining, pos =>
    let s0 := sh.globalOff
    let s1 := sh.globalOff + sh.nbytes
    if s1 ≤ pos ∨ remaining = 0 then piecesLoop shards destOff remaining pos
    else if pos < s0 then none
    else do
      let take := min remaining (s1 - pos)
      let pieces ← piecesLoop shards (destOff + take) (remaining - take) (pos + take)
      return ⟨sh.file, pos - s0, destOff, take⟩ :: pieces

def pieces (r : FTWReader) (globalOff nbytes : ℕ) : Option (List Piece) :=
  piecesLoop r.shards 0 nbytes globalOff

end FTWReader

/-- `range(0, stop, step)`. -/
def stepRange (stop step : ℕ) : List ℕ := (List.range ((stop + step - 1) / step)).map (· * step)

def pieceJobs (chunk : ℕ) (p : Piece) : List Piece :=
  let rlen := alignUp p.length
  (stepRange rlen chunk).map fun c => ⟨p.file, p.fileOff + c, p.destOff + c, min chunk (rlen - c)⟩

/-- How a region is read: whether with direct reads, in which order the pool runs the jobs, and how
short every direct read is. -/
structure ReadMode where
  direct : Bool
  chunk : ℕ
  order : List Piece → List Piece
  /-- The blocks that a direct read returns at most, for the job and the bytes that it has. -/
  blocks : Piece → ℕ → ℕ
  chunk_pos : 0 < chunk
  chunk_align : direct = true → chunk % align = 0
  order_perm : ∀ jobs, (order jobs).Perm jobs
  blocks_pos : ∀ job done, 0 < blocks job done

/-- `dest[pos : pos + len(data)] = data`. -/
def writeAt (dest : Bytes) (pos : ℕ) (data : Bytes) : Bytes :=
  dest.take pos ++ data ++ dest.drop (pos + data.length)

/-- The loop of `_pread_into`, for so many rounds.  A direct read wants its offset, its length and
the place in the buffer aligned. -/
def preadLoop (data : Bytes) (blocks : ℕ → ℕ) (fileOff destOff total : ℕ) :
    ℕ → ℕ → Bytes → Option Bytes
  | 0, done, dest => if done < total then none else some dest
  | rounds + 1, done, dest =>
    if done < total then
      if (fileOff + done) % align = 0 ∧ (total - done) % align = 0 ∧ (destOff + done) % align =
        0 then
        let n := min (min (blocks done * align) (total - done)) (data.length - (fileOff + done))
        if n = 0 then none
        else preadLoop data blocks fileOff destOff total rounds (done + n)
          (writeAt dest (destOff + done) ((data.drop (fileOff + done)).take n))
      else none
    else some dest

/-- `rd`, with direct reads. -/
def rdDirect (data : Bytes) (blocks : ℕ → ℕ) (job : Piece) (dest : Bytes) : Option Bytes :=
  let total := min job.length (dest.length - job.destOff)
  preadLoop data blocks job.fileOff job.destOff total total 0 dest

/-- `rd`, with a map of the file. -/
def rdMap (data : Bytes) (job : Piece) (dest : Bytes) : Option Bytes :=
  if data.length < job.fileOff + job.length then none
  else if job.destOff + job.length ≤ dest.length then
    some (writeAt dest job.destOff ((data.drop job.fileOff).take job.length))
  else none

def rd (dir : Dir) (mode : ReadMode) (dest : Bytes) (job : Piece) : Option Bytes := do
  let data ← dir job.file
  if mode.direct then rdDirect data (mode.blocks job) job dest else rdMap data job dest

def FTWReader.readInto (r : FTWReader) (mode : ReadMode) (dest : Bytes) (globalOff nbytes : ℕ) :
    Option Bytes := do
  let pieces ← r.pieces globalOff nbytes
  (mode.order (pieces.flatMap (pieceJobs mode.chunk))).foldlM (rd r.dir mode) dest

/-! ### Expert banks -/

/-- A job of `row_jobs`, with how to carve the layer out. -/
structure Window where
  winOff : ℕ
  winLen : ℕ
  headPad : ℕ
  layerBytes : ℕ
deriving DecidableEq, Repr

def layerWindow (globalOff layerBytes layerId : ℕ) : Window :=
  let off := globalOff + layerId * layerBytes
  let winOff := off / align * align
  let winEnd := alignUp (off + layerBytes)
  ⟨winOff, winEnd - winOff, off - winOff, layerBytes⟩

def flatWindows (elsize : Text → ℕ) (numLayers : ℕ) (e : TensorEntry) : Option (List Window) :=
  match e.shape with
  | [] => none
  | total :: rowShape =>
    if numLayers ≠ 0 ∧ total % numLayers = 0 then
      let layerBytes := total / numLayers * (prod rowShape * elsize e.dtype)
      if layerBytes * numLayers = e.nbytes then
        some ((List.range numLayers).map (layerWindow e.globalOff layerBytes))
      else none
    else none

/-- The layers of a flat entry, as `load_ftw_banks` reads them. -/
def loadFlat (elsize : Text → ℕ) (r : FTWReader) (mode : ReadMode) (numLayers : ℕ)
    (e : TensorEntry) :
    Option (List Bytes) :=
  if r.index.expertBankNumLayers.any (· ≠ numLayers) then none
  else do
    let windows ← flatWindows elsize numLayers e
    windows.mapM fun win => do
      let bank ← r.readInto mode (List.replicate (alignUp win.winLen) 0) win.winOff win.winLen
      return (bank.drop win.headPad).take win.layerBytes

end Ftw

end FreeToken
