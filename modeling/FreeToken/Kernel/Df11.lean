import FreeToken.Lib.Heapq
import Mathlib.Data.List.Sort

/-!
# DF11, a lossless code for bf16 weights

The exponents of a matrix are Huffman-coded, and the sign and the mantissa are kept.  Symbols are
exponents, a word has 32 bits, and a code is written from its first bit on, which is the highest
one.
-/

namespace FreeToken

/-- A matrix of bf16 values, by their bits, row by row. -/
structure Bf16Matrix where
  rows : ℕ
  cols : ℕ
  bits : List UInt16
  length_bits : bits.length = rows * cols

/-- `reshape`, of the values of a matrix. -/
def Bf16Matrix.reshape (bits : List UInt16) (rows cols : ℕ) : Option Bf16Matrix :=
  if h : bits.length = rows * cols then some ⟨rows, cols, bits, h⟩ else none

namespace Df11

/-! ### The code -/

/-- A node of the tree: `("leaf", sym)` or `("node", n1, n2)`. -/
inductive Node where
  | leaf (sym : ℕ)
  | node (n1 n2 : Node)
deriving DecidableEq, Repr

/-- An entry of the heap: `(f, order, node)`. -/
structure Entry where
  f : ℕ
  order : ℕ
  node : Node
deriving DecidableEq, Repr

/-- The order of the heap.  Which of two entries with the same `f` is popped is left to the heap. -/
def Entry.stamp (e : Entry) : ℤ := e.f

variable (H : Heapq Entry.stamp)

def pushLeaves : List (ℕ × ℕ) → List Entry → ℕ → List Entry
  | [], heap, _ => heap
  | (sym, f) :: freq, heap, order => pushLeaves freq (H.heappush heap ⟨f, order, .leaf sym⟩)
    (order + 1)

/-- `while len(heap) > 1`: the two least entries become one.  Each round takes one entry away. -/
def mergeHeap : ℕ → List Entry → ℕ → Option (List Entry)
  | 0, heap, _ => some heap
  | rounds + 1, heap, order =>
    if 1 < heap.length then do
      let (e1, heap) ← H.heappop heap
      let (e2, heap) ← H.heappop heap
      mergeHeap rounds (H.heappush heap ⟨e1.f + e2.f, order, .node e1.node e2.node⟩) (order + 1)
    else some heap

/-- The lengths of the codes of the leaves. -/
def walk : Node → ℕ → List (ℕ × ℕ)
  | .leaf sym, depth => [(sym, max depth 1)]
  | .node n1 n2, depth => walk n1 (depth + 1) ++ walk n2 (depth + 1)

/-- `_huffman_lengths`: `(symbol, length)`. -/
def huffmanLengths (freq : List (ℕ × ℕ)) : Option (List (ℕ × ℕ)) :=
  match freq with
  | [(sym, _)] => some [(sym, 1)]
  | freq => do
    let heap ← mergeHeap H freq.length (pushLeaves H freq [] 0) freq.length
    let root ← heap.head?
    return walk root.node 0

/-- `max(lengths.values())`. -/
def maxLength (lengths : List (ℕ × ℕ)) : ℕ := lengths.foldl (fun m l => max m l.2) 0

/-- The loop of `_length_limited_lengths`, for so many rounds. -/
def lengthLimitedFrom (lmax : ℕ) : ℕ → List (ℕ × ℕ) → ℕ → Option (List (ℕ × ℕ))
  | 0, _, _ => none
  | rounds + 1, f, floor => do
    let lengths ← huffmanLengths H f
    if maxLength lengths ≤ lmax then return lengths
    else lengthLimitedFrom lmax rounds (f.map fun sc => (sc.1, max sc.2 (floor * 2))) (floor * 2)

def lengthLimitedLengths (rounds : ℕ) (freq : List (ℕ × ℕ)) (lmax : ℕ) : Option (List (ℕ × ℕ)) :=
  lengthLimitedFrom H lmax rounds freq 1

/-- A code: the symbol, its code word and the length of it. -/
structure Code where
  sym : ℕ
  code : ℕ
  length : ℕ
deriving DecidableEq, Repr

/-- The order of `(length, symbol)`. -/
def codeOrder (a b : ℕ × ℕ) : Prop := a.2 < b.2 ∨ a.2 = b.2 ∧ a.1 ≤ b.1

instance : DecidableRel codeOrder :=
  fun a b => inferInstanceAs (Decidable (a.2 < b.2 ∨ a.2 = b.2 ∧ a.1 ≤ b.1))

def canonicalFrom : ℕ → ℕ → List (ℕ × ℕ) → List Code
  | _, _, [] => []
  | code, prevLen, (sym, length) :: items =>
    let code := (code + 1) <<< (length - prevLen)
    ⟨sym, code, length⟩ :: canonicalFrom code length items

def canonicalCodes (lengths : List (ℕ × ℕ)) : Option (List Code) :=
  match lengths.insertionSort codeOrder with
  | [] => none
  | (sym, length) :: items => some (⟨sym, 0, length⟩ :: canonicalFrom 0 length items)

/-- `lut[base : base + span] = value`. -/
def setSlice (lut : List ℕ) (base span value : ℕ) : List ℕ :=
  lut.mapIdx fun i x => if base ≤ i ∧ i < base + span then value else x

/-- The next `lmax` bits to `(symbol << 8) | length`. -/
def buildLut (codes : List Code) (lmax : ℕ) : List ℕ :=
  codes.foldl (fun lut c => setSlice lut (c.code <<< (lmax - c.length)) (1 <<< (lmax - c.length))
    (c.sym <<< 8 ||| c.length)) (List.replicate (1 <<< lmax) 0)

/-- The symbols of a histogram, with their counts. -/
def frequencies (hist : List ℕ) : List (ℕ × ℕ) :=
  ((List.range hist.length).map fun s => (s, hist.getD s 0)).filter (·.2 ≠ 0)

def codesOf (rounds : ℕ) (hist : List ℕ) (lmax : ℕ) : Option (List Code) := do
  let lengths ← lengthLimitedLengths H rounds (frequencies hist) lmax
  canonicalCodes lengths

/-- `code_arr`, with the given field of the codes. -/
def codeArr (field : Code → ℕ) (codes : List Code) : List ℕ :=
  codes.foldl (fun arr c => arr.set c.sym (field c)) (List.replicate 256 0)

/-! ### Values -/

def expOf (b : UInt16) : ℕ := (b.toNat >>> 7) &&& 0xFF

def low8Of (b : UInt16) : UInt8 := UInt8.ofNat (((b.toNat >>> 15) &&& 1) <<< 7 ||| b.toNat &&& 0x7F)

/-- The value of an exponent and of what was kept. -/
def u16Of (low : UInt8) (exp : ℕ) : UInt16 :=
  UInt16.ofNat (((low.toNat >>> 7) &&& 1) <<< 15 ||| exp <<< 7 ||| low.toNat &&& 0x7F)

/-- `torch.bincount(exp, minlength=256)`. -/
def bincount (exp : List ℕ) : List ℕ := (List.range 256).map exp.count

/-- The sum of the first values: `torch.cumsum`, behind a zero. -/
def cumsum (f : ℕ → ℕ) : ℕ → ℕ
  | 0 => 0
  | k + 1 => cumsum f k + f k

/-! ### Packing -/

/-- A code word at its place in the stream. -/
structure Placed where
  off : ℕ
  code : ℕ
  length : ℕ
deriving DecidableEq, Repr

namespace Placed

def word (c : Placed) : ℕ := c.off >>> 5

def bitsInW (c : Placed) : ℕ := min c.length (32 - (c.off &&& 31))

def rem (c : Placed) : ℕ := c.length - c.bitsInW

def high (c : Placed) : ℕ := (c.code >>> c.rem) <<< (32 - (c.off &&& 31) - c.bitsInW)

def low (c : Placed) : ℕ := (c.code &&& ((1 <<< c.rem) - 1)) <<< (32 - c.rem)

end Placed

def indexAdd (words : List ℕ) (items : List (ℕ × ℕ)) : Option (List ℕ) :=
  if ∀ item ∈ items, item.1 < words.length then
    some (items.foldl (fun words item => words.modify item.1 (· + item.2)) words)
  else none

/-- Both halves of every code are added to the words. -/
def packCodes (words : List ℕ) (placed : List Placed) : Option (List ℕ) := do
  let words ← indexAdd words (placed.map fun c => (c.word, c.high))
  indexAdd words (placed.map fun c => (c.word + 1, c.low))

/-- `.to(torch.int32)`. -/
def toInt32 (x : ℕ) : ℤ := Int.bmod x (2 ^ 32)

/-- `bitstream`. -/
def bitstreamOf (words : List ℕ) : List ℤ := words.map fun w => toInt32 (w &&& 0xFFFFFFFF)

/-- What is stored: the layout is `meta`, and the offsets of the chunks are signed integers. -/
structure Bundle where
  low8 : List UInt8
  bitstream : List ℤ
  chunkStart : List ℤ
  lut : List ℕ
  outFeatures : ℕ
  inFeatures : ℕ
  n : ℕ
  numChunks : ℕ
  rows : ℕ
  lmax : ℕ

def numWords (totalBits : ℕ) : ℕ := (totalBits + 31) / 32 + 2

/-- The interleaved layout of `n` codes of the given lengths, with `g` chunks of up to `rows`
symbols: position `i * g + j` is symbol `i` of chunk `j`. -/
def len2d (len : ℕ → ℕ) (n g i j : ℕ) : ℕ := if i * g + j < n then len (i * g + j) else 0

def chunkStart (len : ℕ → ℕ) (n g rows j : ℕ) : ℕ :=
  cumsum (fun j => cumsum (len2d len n g · j) rows) j

/-- `off`. -/
def offset (len : ℕ → ℕ) (n g rows p : ℕ) : ℕ :=
  chunkStart len n g rows (p % g) + cumsum (len2d len n g · (p % g)) (p / g)

def wCode (codes : List Code) (exp : List ℕ) : List ℕ :=
  exp.map fun e => (codeArr Code.code codes).getD e 0

def wLen (codes : List Code) (exp : List ℕ) : List ℕ :=
  exp.map fun e => (codeArr Code.length codes).getD e 0

def numChunks (n chunk : ℕ) : ℕ := (n + chunk - 1) / chunk

/-- `rows`: the number of symbols of the longest chunk. -/
def chunkRows (n chunk : ℕ) : ℕ := (n + numChunks n chunk - 1) / numChunks n chunk

/-- The code words of the interleaved layout. -/
def placeChunks (codes : List Code) (exp : List ℕ) (chunk : ℕ) : List Placed :=
  let n := exp.length
  let len := fun p => (wLen codes exp).getD p 0
  (List.range n).map fun p =>
    ⟨offset len n (numChunks n chunk) (chunkRows n chunk) p, (wCode codes exp).getD p 0, len p⟩

/-- `total_bits`: all code lengths, of the last chunk as well. -/
def chunkBits (codes : List Code) (exp : List ℕ) (chunk : ℕ) : ℕ :=
  let n := exp.length
  chunkStart (fun p => (wLen codes exp).getD p 0) n (numChunks n chunk) (chunkRows n chunk)
    (numChunks n chunk)

def df11Compress (rounds : ℕ) (weight : Bf16Matrix) (chunk lmax : ℕ) : Option Bundle := do
  let n := weight.bits.length
  let exp := weight.bits.map expOf
  let low8 := weight.bits.map low8Of
  let codes ← codesOf H rounds (bincount exp) lmax
  let start :=
    chunkStart (fun p => (wLen codes exp).getD p 0) n (numChunks n chunk) (chunkRows n chunk)
  let words ← packCodes (List.replicate (numWords (chunkBits codes exp chunk)) 0)
    (placeChunks codes exp chunk)
  return ⟨low8, bitstreamOf words, (List.range (numChunks n chunk)).map fun j => toInt32 (start j),
    buildLut codes lmax, weight.rows, weight.cols, n, numChunks n chunk, chunkRows n chunk, lmax⟩

/-! ### Decoding -/

/-- `l[i]`, where a negative index counts from the end. -/
def pyGet (l : List ℕ) (i : ℤ) : Option ℕ :=
  if 0 ≤ i then l[i.toNat]? else if 0 ≤ i + l.length then l[(i + l.length).toNat]? else none

/-- The `lmax` bits from `pos` on. -/
def peek (stream : List ℕ) (lmax : ℕ) (pos : ℤ) : Option ℕ := do
  let w := pos / 32
  let o := (pos % 32).toNat
  let hi ← if w < stream.length then pyGet stream w else some 0
  let lo ← if w + 1 < stream.length then pyGet stream (w + 1) else some 0
  return ((hi <<< 32 ||| lo) >>> (64 - o - lmax)) &&& ((1 <<< lmax) - 1)

/-- The symbols of a chunk go to the given positions. -/
def decodeChunk (stream lut : List ℕ) (lmax : ℕ) : List ℕ → ℤ → List ℕ → Option (List ℕ)
  | [], _, expOut => some expOut
  | p :: positions, pos, expOut => do
    let v ← peek stream lmax pos
    let combined ← lut[v]?
    decodeChunk stream lut lmax positions (pos + (combined &&& 0xFF : ℕ))
      (expOut.set p (combined >>> 8))

def streamOf (bitstream : List ℤ) : List ℕ := bitstream.map fun x => (x % 2 ^ 32).toNat

def decodeChunks (stream lut : List ℕ) (lmax : ℕ) (chunks : List (ℤ × List ℕ)) (n : ℕ) :
    Option (List ℕ) :=
  chunks.foldlM (fun expOut chunk => decodeChunk stream lut lmax chunk.2 chunk.1 expOut)
    (List.replicate n 0)

def df11DecompressRef (c : Bundle) : Option Bf16Matrix := do
  let chunks ← (List.range c.numChunks).mapM fun j => (c.chunkStart[j]?).map fun start =>
    (start, ((List.range c.rows).map fun i => i * c.numChunks + j).takeWhile (· < c.n))
  let expOut ← decodeChunks (streamOf c.bitstream) c.lut c.lmax chunks c.n
  Bf16Matrix.reshape (List.zipWith u16Of c.low8 expOut) c.outFeatures c.inFeatures

/-! ### Rows -/

/-- The blocks `(r0, r1)` of `range(0, rows, row_block)`. -/
def rowBlocks (rows rowBlock : ℕ) : List (ℕ × ℕ) :=
  (List.range ((rows + rowBlock - 1) / rowBlock)).map fun k =>
    (k * rowBlock, min (k * rowBlock + rowBlock) rows)

/-- `weight[r0:r1].reshape(-1)`. -/
def blockBits (weight : Bf16Matrix) (block : ℕ × ℕ) : List UInt16 :=
  (weight.bits.drop (block.1 * weight.cols)).take ((block.2 - block.1) * weight.cols)

/-- What `df11_compress_rows` stores. -/
structure RowBundle where
  low8 : List UInt8
  bitstream : List ℤ
  chunkStart : List ℕ
  lut : List ℕ
  rows : ℕ
  cols : ℕ
  n : ℕ
  lmax : ℕ

def blockExp (weight : Bf16Matrix) (block : ℕ × ℕ) : List ℕ := (blockBits weight block).map expOf

def rowsHist (weight : Bf16Matrix) (rowBlock : ℕ) : List ℕ :=
  (rowBlocks weight.rows rowBlock).foldl
    (fun hist block => List.zipWith (· + ·) hist (bincount (blockExp weight block)))
    (List.replicate 256 0)

def rowBits (codes : List Code) (weight : Bf16Matrix) (rowBlock : ℕ) : List ℕ :=
  (rowBlocks weight.rows rowBlock).flatMap fun block =>
    (List.range (block.2 - block.1)).map fun r =>
    cumsum (fun k => (wLen codes (blockExp weight block)).getD (r * weight.cols + k) 0) weight.cols

/-- `chunk_start` of the layout of rows, with `total_bits` behind the last row. -/
def rowStart (codes : List Code) (weight : Bf16Matrix) (rowBlock : ℕ) : ℕ → ℕ :=
  cumsum fun r => (rowBits codes weight rowBlock).getD r 0

def placeBlock (codes : List Code) (weight : Bf16Matrix) (start : ℕ → ℕ) (block : ℕ × ℕ) :
    List Placed :=
  let wCode := wCode codes (blockExp weight block)
  let wLen := wLen codes (blockExp weight block)
  (List.range ((block.2 - block.1) * weight.cols)).map fun p =>
    let r := p / weight.cols
    ⟨start (block.1 + r) + cumsum (fun k => wLen.getD (r * weight.cols + k) 0)
      (p % weight.cols), wCode.getD p 0, wLen.getD p 0⟩

def df11CompressRows (rounds : ℕ) (weight : Bf16Matrix) (lmax rowBlock : ℕ) : Option RowBundle := do
  let n := weight.rows * weight.cols
  let blocks := rowBlocks weight.rows rowBlock
  let low8 := blocks.flatMap fun block => (blockBits weight block).map low8Of
  let codes ← codesOf H rounds (rowsHist weight rowBlock) lmax
  let start := rowStart codes weight rowBlock
  let words ← blocks.foldlM
    (fun words block => packCodes words (placeBlock codes weight start block))
    (List.replicate (numWords (start weight.rows)) 0)
  return ⟨low8, bitstreamOf words, (List.range weight.rows).map start, buildLut codes lmax,
    weight.rows, weight.cols, n, lmax⟩

def df11DecompressRowsRef (c : RowBundle) : Option Bf16Matrix := do
  let chunks ← (List.range c.rows).mapM fun r => (c.chunkStart[r]?).map fun start : ℕ =>
    ((start : ℤ), (List.range c.cols).map fun k => r * c.cols + k)
  let expOut ← decodeChunks (streamOf c.bitstream) c.lut c.lmax chunks c.n
  Bf16Matrix.reshape (List.zipWith u16Of c.low8 expOut) c.rows c.cols

end Df11

end FreeToken
