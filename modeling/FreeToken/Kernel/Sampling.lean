import FreeToken.Lib.BracketSearch
import FreeToken.Lib.Lanes
import Mathlib.Algebra.Order.Ring.Rat
import Mathlib.Data.Nat.Size

/-!
# Split-vocabulary sampling

The fused kernels for one row.  The row is split into chunks, one for each of its programs; between
two phases the programs meet at a barrier, and what they have added up in memory is the sum over all
of them.

* `topkThreshold`: four rounds over the bit patterns, with counts.
* `toppThreshold`: four rounds with masses, after a top-k or without.
* `keepTail`, `drawFind`: the tokens that the programs write.
-/

namespace FreeToken

namespace Sampling

/-- `_KBINS` and `_PMBINS`. -/
def bins : ℕ := 256

def infBits : ℤ := 2139095040

def minusOneBits : ℤ := -1082130432

/-! ### Numbers -/

/-- The number with these bits, in units of the least one. -/
def units (b : ℕ) : ℕ :=
  if b / 2 ^ 23 = 0 then b % 2 ^ 23 else (2 ^ 23 + b % 2 ^ 23) * 2 ^ (b / 2 ^ 23 - 1)

/-- The number with these bits, where it is finite and not negative. -/
def ofBits (b : ℤ) : ℚ := (units b.toNat : ℚ) / 2 ^ 149

structure Row where
  size : ℕ
  bits : ℕ → ℤ
  nonneg : ∀ i < size, 0 ≤ bits i
  finite : ∀ i < size, bits i < infBits

/-- How a row is split: `G` and `BLOCK`. -/
structure Grid where
  chunks : ℕ
  block : ℕ
  chunks_pos : 0 < chunks
  block_pos : 0 < block

variable (row : Row) (g : Grid)

def Row.prob (i : ℕ) : ℚ := ofBits (row.bits i)

def Grid.chunk : ℕ := (row.size + g.chunks - 1) / g.chunks

def Grid.start (cta : ℕ) : ℕ := cta * g.chunk row

def Grid.stop (cta : ℕ) : ℕ := min (g.start row cta + g.chunk row) row.size

def nextPow2 (x : ℕ) : ℕ := 2 ^ Nat.size (x - 1)

/-! ### Rounds over the bit pattern -/

/-- `S` and `WIDTH`. -/
structure Round where
  shift : ℕ
  width : ℤ

/-- The four rounds of the fused kernels. -/
def rounds : List Round := [⟨23, 0⟩, ⟨15, 1 <<< 23⟩, ⟨7, 1 <<< 15⟩, ⟨0, 1 <<< 7⟩]

def Round.inRange (r : Round) (lo y : ℤ) (mask : Bool) : Bool :=
  mask && lo ≤ y && (r.width = 0 || y - lo < r.width) && y ≤ infBits

/-- What a program adds to a bin of the histogram.  Every lane out of the bracket is in bin 0, and
is subtracted again. -/
def countChunk (r : Round) (lo : ℤ) (cta bin : ℕ) : ℤ :=
  ∑ c ∈ Finset.range (trips (g.start row cta) (g.stop row cta) g.block),
    let offs l := g.start row cta + c * g.block + l
    let mask l : Bool := offs l < g.stop row cta
    let y l := if mask l then row.bits (offs l) else minusOneBits
    let b l := if r.inRange lo (y l) (mask l) then (y l - lo) >>> r.shift else 0
    (∑ l ∈ Finset.range g.block, if b l = bin then 1 else 0) -
      if bin = 0 then ∑ l ∈ Finset.range g.block, if r.inRange lo (y l) (mask l) then 0 else 1
        else 0

/-- `_bits_round`: `lo` and `above`. -/
def bitsRound (target : ℤ) (state : ℤ × ℤ) (r : Round) : ℤ × ℤ :=
  let h bin := ∑ cta ∈ Finset.range g.chunks, countChunk row g r state.1 cta bin
  let j := lastWhere bins fun j => target ≤ tailSum state.2 h bins j
  let prefixJ := ∑ jj ∈ Finset.range bins, if (jj : ℤ) ≤ j then h jj else 0
  if 0 ≤ j then (state.1 + j <<< r.shift, state.2 + ∑ jj ∈ Finset.range bins, h jj - prefixJ)
    else state

/-- The threshold of `_topk_fused`. -/
def topkThreshold (topK : ℤ) : ℤ := (rounds.foldl (bitsRound row g (max topK 1)) (0, 0)).1

/-- What a program adds to its private bin. -/
def massChunk (r : Round) (lo : ℤ) (cta bin : ℕ) : ℚ :=
  ∑ c ∈ Finset.range (trips (g.start row cta) (g.stop row cta) g.block),
    let offs l := g.start row cta + c * g.block + l
    let mask l : Bool := offs l < g.stop row cta
    let y l := if mask l then row.bits (offs l) else 0
    let b l := if r.inRange lo (y l) (mask l) then (y l - lo) >>> r.shift else 0
    ∑ l ∈ Finset.range g.block, if r.inRange lo (y l) (mask l) ∧ b l = bin then ofBits (y l) else 0

def pmassRound (target : ℚ) (state : ℤ × ℚ) (r : Round) : ℤ × ℚ :=
  let m bin := ∑ cta ∈ Finset.range g.chunks, massChunk row g r state.1 cta bin
  let j := max (lastWhere bins fun j => target ≤ tailSum state.2 m bins j) 0
  let prefixJ := ∑ jj ∈ Finset.range bins, if (jj : ℤ) ≤ j then m jj else 0
  (state.1 + j <<< r.shift, state.2 + ∑ jj ∈ Finset.range bins, m jj - prefixJ)

def keptChunk (thr : ℤ) (cta : ℕ) : ℚ :=
  ∑ c ∈ Finset.range (trips (g.start row cta) (g.stop row cta) g.block),
    let offs l := g.start row cta + c * g.block + l
    ∑ l ∈ Finset.range g.block,
      if offs l < g.stop row cta then if ofBits thr ≤ row.prob (offs l) then row.prob (offs l)
        else 0 else 0

/-- The threshold of `_topp_fused`, after a top-k or without. -/
def toppThreshold (topK : Option ℤ) (topP : ℚ) : ℤ :=
  match topK with
  | some topK =>
    let thrK := topkThreshold row g topK
    let ksum := ∑ cta ∈ Finset.range g.chunks, keptChunk row g thrK cta
    (rounds.foldl (pmassRound row g (topP * ksum)) (thrK, 0)).1
  | none => (rounds.foldl (pmassRound row g topP) (0, 0)).1

/-! ### The draw -/

/-- Where the loop of a program is: `acc`, `last_kept`, and the tokens that it has written. -/
structure Draw where
  acc : ℚ
  lastKept : ℤ := -1
  tokens : List ℕ := []

/-- `tl.min`. -/
def laneMin (n : ℕ) (f : ℕ → ℕ) : ℕ := (List.range n).foldl (fun m l => min m (f l)) (f 0)

/-- A block of the loop; `live` are the tokens that may be the last one. -/
def drawBlock (thr : ℤ) (tgt : ℚ) (live : ℕ → Bool) (cta : ℕ) (d : Draw) (c : ℕ) : Draw :=
  let offs l := g.start row cta + c * g.block + l
  let kept l : Bool := offs l < g.stop row cta ∧ ofBits thr ≤ row.prob (offs l)
  let wv l := if kept l then row.prob (offs l) else 0
  let idx l := if tgt < d.acc + ∑ i ∈ Finset.range (l + 1), wv i then offs l else row.size
  let blkMin := laneMin g.block idx
  { acc := d.acc + ∑ l ∈ Finset.range g.block, wv l
    lastKept := max d.lastKept
      ((List.range g.block).foldl
        (fun m l => max m (if kept l && live (offs l) then (offs l : ℤ) else -1)) (-1))
    tokens := if blkMin < row.size ∧ d.acc ≤ tgt then d.tokens ++ [blkMin] else d.tokens }

def drawChunk (thr : ℤ) (tgt acc incl : ℚ) (isLastMass : Bool) (live : ℕ → Bool) (cta : ℕ) :
    List ℕ :=
  let d := (List.range (trips (g.start row cta) (g.stop row cta) g.block)).foldl
    (drawBlock row g thr tgt live cta) { acc }
  if d.acc ≤ tgt ∧ 0 ≤ d.lastKept ∧ (tgt < incl ∨ isLastMass) then d.tokens ++ [d.lastKept.toNat]
    else d.tokens

/-- `_keep_tail`, when it draws. -/
def keepTail (thr : ℤ) (u : ℚ) (cta : ℕ) : List ℕ :=
  let ps goff := if goff < g.chunks then keptChunk row g thr goff else 0
  let lanes := Finset.range (nextPow2 g.chunks)
  drawChunk row g thr (u * ∑ goff ∈ lanes, ps goff) (∑ goff ∈ lanes, if goff < cta then ps goff
    else 0) (∑ goff ∈ lanes, if goff ≤ cta then ps goff else 0)
    ((∑ goff ∈ lanes, if cta < goff ∧ 0 < ps goff then 1 else 0) = 0) (fun i => 0 < row.prob i) cta

/-- The tokens that the programs of a row write. -/
def fusedTokens (thr : ℤ) (u : ℚ) : List ℕ := (List.range g.chunks).flatMap (keepTail row g thr u)

/-- `_draw_find`, after `_draw_part` and `_draw_scan`. -/
def drawFind (thr : ℤ) (u : ℚ) (cta : ℕ) : List ℕ :=
  let ps goff := if goff < g.chunks then keptChunk row g thr goff else 0
  let lanes := nextPow2 g.chunks
  let choff := ∑ goff ∈ Finset.range (cta + 1), ps goff - ps cta
  let last := lastWhere lanes fun goff => goff < g.chunks ∧ 0 < ps goff
  drawChunk row g thr (u * ∑ goff ∈ Finset.range lanes, ps goff) choff (choff + ps cta) (last = cta)
    (fun _ => true) cta

/-- The tokens that `_draw` writes. -/
def drawTokens (thr : ℤ) (u : ℚ) : List ℕ := (List.range g.chunks).flatMap (drawFind row g thr u)

end Sampling

end FreeToken
