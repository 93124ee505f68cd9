import FreeToken.Lib.Lanes
import Mathlib.Data.Nat.Log

/-!
# Block top-k over the scores of the QSA indexer

The kernels of `qsa_block_topk` for one row.  A score is the bit pattern of an fp32 number; a key is
its image, with 0 for a dead column.  Memory is a function of the index.

* `qsaBlockTopkKernel`: one program for the row, in one tile or in several.
* `qsaTopkSplitKernel`, `qsaTopkMergeKernel`: the top-k of each chunk, and of the union of those.
* `qsaBlockTopk`: what the host launches.
-/

namespace FreeToken.QsaTopk

abbrev Key := BitVec 32

/-! ### Keys -/

/-- `-float("inf")`. -/
def negInf : BitVec 32 := 0xFF800000#32

def isNaN (value : BitVec 32) : Bool := 0x7F800000#32 < value &&& 0x7FFFFFFF#32

/-- `value > -float("inf")`. -/
def aboveNegInf (value : BitVec 32) : Bool := !isNaN value && value ≠ negInf

def monotoneKey (value : BitVec 32) : Key :=
  if value >>> 31 = 0#32 then value ||| 0x80000000#32 else ~~~value

/-- `_load_keys`, at one column. -/
def loadKeys (logitsRow : ℕ → BitVec 32) (limit column : ℕ) : Key :=
  if column < limit ∧ aboveNegInf (logitsRow column) then monotoneKey (logitsRow column) else 0#32

/-! ### Radix select -/

def radix : ℕ := 5

def bins : ℕ := 2 ^ radix

def passes : ℕ := (32 + radix - 1) / radix

def maxBlockN : ℕ := 4096

def maxResident : ℕ := 8192

def minChunk : ℕ := 4096

/-- The range of keys that a radix select has come to, and the winners that are still to be found in
it. -/
structure KeyRange where
  start : Key := 0#32
  keep : Key := 0#32
  kRem : ℤ
  settled : Bool := false
deriving DecidableEq, Repr

def digit (key : Key) (shift : ℕ) : ℕ := ((key >>> shift) &&& BitVec.ofNat 32 (bins - 1)).toNat

/-- The histogram of the digits of a tile, over the keys that match what is fixed. -/
def histogram (n : ℕ) (key : ℕ → Key) (r : KeyRange) (shift bin : ℕ) : ℤ :=
  laneSum n (maskInt fun i => key i ≠ 0#32 && (key i &&& r.keep) = r.start && digit (key i) shift =
    bin)

def narrow (hist : ℕ → ℤ) (r : KeyRange) (shift : ℕ) : KeyRange :=
  let above bin := laneSum bins hist - laneCumsum hist bin
  let inside bin : Bool := above bin < r.kRem
  let candidate (bin : ℕ) : ℤ := if inside bin then (bin : ℤ) else bins - 1
  let binId := (candidate (laneArgmin candidate bins)).toNat
  let hit (bin : ℕ) : Bool := bin = binId
  let kRem := r.kRem - laneSum bins fun bin => if hit bin then above bin else 0
  { start := r.start ||| BitVec.ofNat 32 binId <<< shift
    keep := r.keep ||| BitVec.ofNat 32 (bins - 1) <<< shift
    kRem
    settled := kRem = laneSum bins fun bin => if hit bin then hist bin else 0 }

/-- The passes of a radix select, with a way to get the histogram. -/
def selectRange (hist : KeyRange → ℕ → ℕ → ℤ) (kEff : ℤ) : KeyRange :=
  (List.range passes).foldl (fun r step =>
    let shift := radix * (passes - 1 - step)
    if r.settled then r else narrow (hist r shift) r shift) { kRem := kEff }

/-- The threshold that a radix select has found: the keys above it win, and so many of those that
are equal. -/
structure Threshold where
  start : Key
  ties : ℤ
deriving DecidableEq, Repr

def KeyRange.threshold (r : KeyRange) (kEff : ℤ) : Threshold :=
  ⟨r.start, if r.settled then kEff else r.kRem⟩

def residentPrefix (n : ℕ) (key : ℕ → Key) (kEff : ℤ) : Threshold :=
  (selectRange (fun r shift => histogram n key r shift) kEff).threshold kEff

/-! ### Ranks -/

/-- What `_tile_ranks` finds in a tile. -/
structure TileRanks where
  rank : ℕ → ℤ
  take : ℕ → Bool
  above : ℤ
  equal : ℤ

/-- `_tile_ranks`.  The prefix sum carries the keys above the threshold in its low half, and those
equal to it in its high half; it fits an int32 in tiles of at most `0x7FFF` columns. -/
def tileRanks (n : ℕ) (key : ℕ → Key) (t : Threshold) (aboveBase equalBase : ℤ) : TileRanks :=
  let greater i : Bool := t.start < key i && key i ≠ 0#32
  let equal i : Bool := key i = t.start && key i ≠ 0#32
  let packed i := maskInt greater i + 2 ^ 16 * maskInt equal i
  let before i := laneCumsum packed i - packed i
  let rankEqual i := equalBase + before i / 2 ^ 16
  let total := laneSum n packed
  { rank := fun i => aboveBase + before i % 2 ^ 16 + min (rankEqual i) t.ties
    take := fun i => greater i || (equal i && rankEqual i < t.ties)
    above := aboveBase + total % 2 ^ 16
    equal := equalBase + total / 2 ^ 16 }

/-- A masked store of the winners at their ranks, in a row whose slots start at `base`. -/
def storeRanks {α : Type} (n topK base : ℕ) (r : TileRanks) (val : ℕ → α) (out : ℕ → α) : ℕ → α :=
  laneStore n (fun i => r.take i && r.rank i < topK) (fun i => base + (r.rank i).toNat) val out

/-- The store of a padding behind the winners, in a row whose slots start at `base`. -/
def storePad {α : Type} (padK topK base : ℕ) (emitted : ℤ) (val : α) (out : ℕ → α) : ℕ → α :=
  laneStore padK (fun pad => emitted ≤ pad && pad < topK) (fun pad => base + pad) (fun _ => val) out

/-! ### One program for a row -/

structure Emitted where
  out : ℕ → ℤ
  above : ℤ := 0
  equal : ℤ := 0

def compact (blockN topK : ℕ) (key : ℕ → Key) (columns : ℕ → ℤ) (t : Threshold) (e : Emitted) :
    Emitted :=
  let r := tileRanks blockN key t e.above e.equal
  { out := storeRanks blockN topK 0 r columns e.out, above := r.above, equal := r.equal }

/-- How many columns of a row are visible. -/
def visibleLimit (visible : ℤ) (numColumns : ℕ) : ℕ := (max (min visible numColumns) 0).toNat

def qsaBlockTopkKernel (logitsRow : ℕ → BitVec 32) (visible : ℤ) (numColumns topK padK blockN : ℕ)
    (singleTile : Bool) (out : ℕ → ℤ) : ℕ → ℤ :=
  let limit := visibleLimit visible numColumns
  let kEff := min limit topK
  let tiles := (limit + blockN - 1) / blockN
  let tileKey tile i := loadKeys logitsRow limit (tile * blockN + i)
  if 0 < kEff then
    if singleTile then
      let resident := loadKeys logitsRow limit
      let t := residentPrefix blockN resident kEff
      let e := compact blockN topK resident (fun i => i) t { out }
      storePad padK topK 0 (e.above + min e.equal t.ties) (-1) e.out
    else
      let hist r shift bin :=
        (List.range tiles).foldl (fun acc tile => acc + histogram blockN (tileKey tile) r shift bin)
          0
      let t := (selectRange hist kEff).threshold kEff
      let e := (List.range tiles).foldl (fun e tile =>
        compact blockN topK (tileKey tile) (fun i => ((tile * blockN + i : ℕ) : ℤ)) t e) { out }
      storePad padK topK 0 (e.above + min e.equal t.ties) (-1) e.out
  else storePad padK topK 0 0 (-1) out

/-! ### Split and merge -/

/-- The two halves of the scratch row: the keys and the columns of the candidates. -/
structure Candidates where
  key : ℕ → Key
  col : ℕ → ℤ

/-- `_qsa_topk_split_kernel`, the program of one chunk. -/
def qsaTopkSplitKernel (logitsRow : ℕ → BitVec 32) (visible : ℤ)
    (numColumns topK padK chunk split : ℕ) (c : Candidates) : Candidates :=
  let base := split * chunk
  let limit := min (visibleLimit visible numColumns - base) chunk
  let kEff := min limit topK
  let slot := split * topK
  if 0 < kEff then
    let key := loadKeys (fun i => logitsRow (base + i)) limit
    let t := residentPrefix chunk key kEff
    let r := tileRanks chunk key t 0 0
    { key := storePad padK topK slot (r.above + min r.equal t.ties) 0#32 (storeRanks chunk topK slot r key c.key)
      col := storeRanks chunk topK slot r (fun i => ((base + i : ℕ) : ℤ)) c.col }
  else { c with key := storePad padK topK slot 0 0#32 c.key }

/-- The output row, and how many winners are in it. -/
def mergeTile (c : Candidates) (candidates : ℕ) (kEff : ℤ) (topK block : ℕ) (out : ℕ → ℤ) :
    (ℕ → ℤ) × ℤ :=
  let key i := if i < candidates then c.key i else 0#32
  let column i := if i < candidates then c.col i else -1
  let t := residentPrefix block key kEff
  let r := tileRanks block key t 0 0
  (storeRanks block topK 0 r column out, r.above + min r.equal t.ties)

def qsaTopkMergeKernel (visible : ℤ) (c : Candidates)
    (numColumns topK padK chunk nSplits blockSmall blockMid blockFull : ℕ) (out : ℕ → ℤ) : ℕ → ℤ :=
  let limit := visibleLimit visible numColumns
  let kEff := min limit topK
  let candidates := min ((limit + chunk - 1) / chunk) nSplits * topK
  let (out, emitted) :=
    if 0 < kEff then
      if candidates ≤ topK then
        -- one live chunk: its winners are those of the row
        let alive slot : Bool := slot < topK && c.key slot ≠ 0#32
        (laneStore padK (fun slot => slot < topK) (fun slot => slot)
          (fun slot => if alive slot then c.col slot else -1) out, laneSum padK (maskInt alive))
      else if candidates ≤ blockSmall then mergeTile c candidates kEff topK blockSmall out
      else if candidates ≤ blockMid then mergeTile c candidates kEff topK blockMid out
      else mergeTile c candidates kEff topK blockFull out
    else (out, 0)
  storePad padK topK 0 emitted (-1) out

/-! ### The host -/

def nextPowerOf2 (n : ℕ) : ℕ := 2 ^ Nat.clog 2 n

/-- The size of a chunk, and how many there are. -/
def splitPlan (columns topK : ℕ) : Option (ℕ × ℕ) :=
  if topK = 0 ∨ columns ≤ minChunk then none
  else
    let maxSplits := maxResident / nextPowerOf2 topK
    if maxSplits < 2 then none
    else
      let chunk := max minChunk (nextPowerOf2 ((columns + maxSplits - 1) / maxSplits))
      if maxResident < chunk then none
      else
        let nSplits := (columns + chunk - 1) / chunk
        if nSplits < 2 ∨ columns ≤ nSplits * topK then none else some (chunk, nSplits)

def qsaBlockTopkScratchWidth (columns topK : ℕ) : ℕ :=
  match splitPlan columns topK with
  | none => 0
  | some (_, nSplits) => 2 * nSplits * topK

/-- The programs of the split kernel for a row: they leave its candidates. -/
def splitCandidates (logitsRow : ℕ → BitVec 32) (visible : ℤ) (columns topK padK chunk nSplits : ℕ)
    (c : Candidates) : Candidates :=
  (List.range nSplits).foldl (fun c split =>
    qsaTopkSplitKernel logitsRow visible columns topK padK chunk split c) c

/-- `qsa_block_topk`, for one row of logits, of the output and of the scratch. -/
def qsaBlockTopk (logitsRow : ℕ → BitVec 32) (visible : ℤ) (columns topK : ℕ) (scratch : Candidates)
    (out : ℕ → ℤ) : ℕ → ℤ :=
  if topK = 0 then out
  else
    let padK := nextPowerOf2 topK
    match splitPlan columns topK with
    | none =>
      let blockN := min maxBlockN (nextPowerOf2 (max columns 1))
      qsaBlockTopkKernel logitsRow visible columns topK padK blockN (columns ≤ blockN) out
    | some (chunk, nSplits) =>
      let mergeBlock := nextPowerOf2 (nSplits * topK)
      qsaTopkMergeKernel visible
        (splitCandidates logitsRow visible columns topK padK chunk nSplits scratch)
        columns topK padK chunk nSplits (min 1024 mergeBlock) (min 4096 mergeBlock) mergeBlock out

end FreeToken.QsaTopk
