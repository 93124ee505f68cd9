import FreeToken.Kernel.PleStore.Store
import FreeToken.Lib.IndexPut
import Mathlib.Algebra.Order.Ring.Int

/-!
# The n-gram embedding

The rows of a token are hashes of the token and the ones before it.  What is before a forward is in
the n-gram context of a slot, which is rolled forward once a forward.

The windows are cut on the host from the token ids of a request, and the store hashes them.
-/

namespace FreeToken

namespace Ple

/-- `MM_PAD_SHIFT_VALUE`. -/
def mmPadShift : ℤ := 1000000

def restorePlaceholder (inputIds : List (BitVec 32)) (tokenId : BitVec 32) : List (BitVec 32) :=
  inputIds.map fun t => if mmPadShift ≤ t.toInt then tokenId else t

/-- `CHUNK_SIZE` of the chunked scan. -/
def chunkSize : ℕ := 64

/-- `.long()`. -/
def long (t : BitVec 32) : BitVec 64 := t.signExtend 64

/-- What the n-gram embedding uses of `Qwen4ExpArgs`. -/
structure Qwen4ExpArgs where
  ngramSize : ℕ
  headsPerNgram : ℕ
  ngramBoundaryTokenId : BitVec 32
  imageTokenId : Option (BitVec 32)

/-- A request of a batch, with its tokens of this forward. -/
structure BatchReq where
  slot : ℕ
  cachedLen : ℕ
  inputIds : List (BitVec 32)

structure PLEMetadata where
  inputIds : List (BitVec 32)
  cuSeqlens : List ℕ
  seqLens : List ℕ
  ngramContext : List (List (BitVec 64))
  stateSlots : List ℕ
  freshSlots : Option (List Bool)
  isDecode : Bool

/-- `ple_ngram_ctx`, by slots. -/
abbrev ContextPool := ℕ → List (BitVec 32)

def buildPleMetadata (isDecode : Bool) (reqs : List BatchReq) (args : Qwen4ExpArgs)
    (contextPool : ContextPool) :
    PLEMetadata :=
  let inputIds := reqs.flatMap BatchReq.inputIds
  let inputIds := args.imageTokenId.elim inputIds (restorePlaceholder inputIds)
  let slots := reqs.map BatchReq.slot
  let context := slots.map fun slot => (contextPool slot).map long
  if isDecode then
    ⟨inputIds, List.range (slots.length + 1), List.replicate slots.length 1, context, slots, none,
      true⟩
  else
    let lens := reqs.map fun r => r.inputIds.length
    let fresh := reqs.map fun r => r.cachedLen == 0
    let context := List.zipWith (fun fresh context =>
      if fresh then List.replicate context.length (long args.ngramBoundaryTokenId) else context)
        fresh context
    ⟨inputIds, lens.scanl (· + ·) 0, lens, context, slots, some fresh, false⟩

/-- The window that a request has after a forward. -/
def nextWindow (ids : List (BitVec 64)) (context : List (BitVec 64)) (lo hi : ℕ) :
    List (BitVec 64) :=
  let ctxLen := context.length
  (List.range ctxLen).map fun j =>
    -- a short forward falls back to the old context
    if lo + ctxLen ≤ hi + j then ids.getD (hi + j - ctxLen) 0
      else context.getD (min (hi - lo + j) (ctxLen - 1)) 0

/-- `commit_ngram_context`, with `track_boundary_row` and `track_dst` of the tracked requests. -/
def commitNgramContext (m : PLEMetadata) (ctxLen : ℕ) (trackBoundaryRow trackDst : List ℕ)
    (contextPool : ContextPool) :
    ContextPool :=
  let ids := m.inputIds.map long
  let nxt :=
    if m.isDecode then List.zipWith (fun context id => context.drop 1 ++ [id]) m.ngramContext ids
    else (List.range m.ngramContext.length).map fun b =>
      nextWindow ids (m.ngramContext.getD b []) (m.cuSeqlens.getD b 0) (m.cuSeqlens.getD (b + 1) 0)
  let contextPool :=
    indexPut contextPool m.stateSlots (nxt.map fun w => w.map fun t => t.setWidth 32)
  let win :=
    trackBoundaryRow.map fun row => (List.range ctxLen).map fun j => ids.getD (row + j - ctxLen) 0
  indexPut contextPool trackDst (win.map fun w => w.map fun t => t.setWidth 32)

/-- `torch.cummax`. -/
def cummax (xs : List ℤ) : List ℤ :=
  (List.range xs.length).map fun i => (xs.take (i + 1)).foldl max (xs.headD 0)

/-- `torch.searchsorted`, from the right. -/
def searchsortedRight (xs : List ℕ) (x : ℕ) : ℕ := xs.countP (· ≤ x)

structure NGramEmbedding where
  args : Qwen4ExpArgs
  layerMultipliers : List (BitVec 64)
  vocabSizes : List ℕ
  offsets : List ℕ

namespace NGramEmbedding

variable (e : NGramEmbedding)

def eos : BitVec 64 := long e.args.ngramBoundaryTokenId

/-- The packed rows, and the row and the column of each token of this forward. -/
def window (m : PLEMetadata) : List (List (BitVec 64)) × List (ℕ × ℕ) :=
  let ids := m.inputIds.map long
  let ctxLen := e.args.ngramSize - 1
  if m.isDecode then
    (List.zipWith (fun context id => context ++ [id]) m.ngramContext ids,
      (List.range ids.length).map fun b => (b, ctxLen))
  else
    let numReqs := m.seqLens.length
    let width := ctxLen + m.seqLens.foldl max 0
    let req := fun pos => min (searchsortedRight m.cuSeqlens pos - 1) (numReqs - 1)
    let col := fun pos => pos - m.cuSeqlens.getD (req pos) 0 + ctxLen
    let packed := m.ngramContext.map fun context => context ++ List.replicate (width - ctxLen) e.eos
    let packed := (List.range ids.length).foldl (fun packed pos =>
      packed.modify (req pos) fun row => row.set (col pos) (ids.getD pos 0)) packed
    (packed, (List.range ids.length).map fun pos => (req pos, col pos))

/-- The column of the last boundary in front of each column, or -1. -/
def prevEos (row : List (BitVec 64)) : List ℤ :=
  -1 :: (cummax (row.mapIdx fun p t => if t = e.eos then (p : ℤ) else -1)).dropLast

/-- `_shift_ignore_eos`, for one row and one shift. -/
def shiftIgnoreEos (row : List (BitVec 64)) (shift : ℕ) : List (BitVec 64) :=
  if shift = 0 then row
  else row.mapIdx fun p _ =>
    if shift ≤ p ∧ (shift : ℤ) ≤ p - (e.prevEos row).getD p (-1) - 1 then row.getD (p - shift) 0
      else e.eos

/-- The rows of a token, of the token and of those before it. -/
def headRows (tokens : ℕ → BitVec 64) : List ℤ :=
  (List.range' 2 (e.args.ngramSize - 1)).flatMap fun ngram =>
    let start := (ngram - 2) * e.args.headsPerNgram
    let mixed := (List.range' 1 (ngram - 1)).foldl
      (fun mixed position => mixed ^^^ (tokens position * e.layerMultipliers.getD position 0))
      (tokens 0 * e.layerMultipliers.getD 0 0)
    (List.range e.args.headsPerNgram).map fun h =>
      mixed.toInt.fmod (e.vocabSizes.getD (start + h) 0) + e.offsets.getD (start + h) 0

def rowIds (m : PLEMetadata) : List (List ℤ) :=
  let window := e.window m
  window.2.map fun place =>
    e.headRows fun shift => (e.shiftIgnoreEos (window.1.getD place.1 []) shift).getD place.2 0

end NGramEmbedding

/-! ### The n-gram embedding from disk -/

/-- The hash constants that a `DiskRowTable` has besides those of its store. -/
structure DiskRowTable where
  store : PleStore
  eosTokenId : BitVec 32
  imageTokenId : Option (BitVec 32)

/-- The token so far in front of a position, which is padded past the start. -/
def tokenBefore (ids : List (BitVec 32)) (position back : ℕ) (eos : BitVec 32) :
    Option (BitVec 32) :=
  if back ≤ position then ids[position - back]? else some eos

def context (ids : List (BitVec 32)) (position : ℕ) (eos : BitVec 32) : Option (List (BitVec 32)) :=
  (tokenBefore ids position 2 eos).bind fun prev2 =>
    (tokenBefore ids position 1 eos).map fun prev1 => [prev2, prev1]

namespace DiskRowTable

variable (d : DiskRowTable)

def pleIds (inputIds : List (BitVec 32)) : List (BitVec 32) :=
  d.imageTokenId.elim inputIds (restorePlaceholder inputIds)

def pleContext (ids : List (BitVec 32)) (position : ℕ) : Option (List (BitVec 32)) :=
  match d.imageTokenId with
  | none => context ids position d.eosTokenId
  | some image => (context ids position d.eosTokenId).map fun ctx =>
    ctx.map fun t => if mmPadShift ≤ t.toInt then image else t

/-- The run of a request that is decoded: `token` is what was read back. -/
def decodeRun (inputIds : List (BitVec 32)) (deviceLen : ℕ) (token : BitVec 32) :
    Option (List (BitVec 64)) :=
  (d.pleContext inputIds (deviceLen - 1)).map fun ctx => (ctx ++ [token]).map long

/-- The run of a request that is prefilled. -/
def prefillRun (inputIds : List (BitVec 32)) (cachedLen deviceLen : ℕ) :
    Option (List (BitVec 64)) :=
  (d.pleContext inputIds cachedLen).map fun ctx =>
    (ctx ++ d.pleIds ((inputIds.take deviceLen).drop cachedLen)).map long

/-- The rows that a run stages, token by token. -/
def runRows (run : List (BitVec 64)) : List (List ℤ) :=
  (List.range (run.length - 2)).map fun i =>
    d.store.hashRows (run.getD i 0) (run.getD (i + 1) 0) (run.getD (i + 2) 0)

end DiskRowTable

end Ple

end FreeToken
