import FreeToken.Lib.IndexPut
import Mathlib.Algebra.BigOperators.Group.Finset.Basic
import Mathlib.Algebra.Ring.Defs

/-!
# The short convolution of the embedding layer

A dilated depthwise convolution over the columns of a request.  The last columns before a forward
are in the state of the request's slot, oldest first.

* `shortConvReference`: request by request, over `[state | chunk]`.
* `prefillConv`: one convolution over `[state_0 | chunk_0 | state_1 | chunk_1 | ...]`.
* `decodeConv`: the taps of a single token, read off the state.
-/

namespace FreeToken.PleConv

abbrev Column (κ R : Type) := κ → R

/-- The kernel, with a tap at every `dilation`-th column. -/
structure ConvArgs (κ R : Type) where
  kernel : ℕ
  dilation : ℕ
  weight : κ → ℕ → R
  silu : R → R
  one_lt_kernel : 1 < kernel
  dilation_pos : 0 < dilation

/-- `ple_conv_state_len`. -/
def ConvArgs.stateLen {κ R : Type} (a : ConvArgs κ R) : ℕ := (a.kernel - 1) * a.dilation

/-- A request of a forward, with its columns. -/
structure ConvReq (κ R : Type) where
  slot : ℕ
  fresh : Bool
  x : List (Column κ R)

abbrev ConvStates (κ R : Type) := ℕ → List (Column κ R)

variable {κ R : Type} [CommRing R] (a : ConvArgs κ R)

/-- `_read_state`, for one request. -/
def readState (states : ConvStates κ R) (r : ConvReq κ R) : List (Column κ R) :=
  if r.fresh then (states r.slot).map fun _ _ => 0 else states r.slot

/-- The product of the kernel and a window. -/
def ConvArgs.tap (window : ℕ → Column κ R) :
  Column κ R := fun ch => ∑ j ∈ Finset.range a.kernel, window j ch * a.weight ch j

/-- `F.silu`. -/
def ConvArgs.act (c : Column κ R) : Column κ R := fun ch => a.silu (c ch)

/-- `F.conv1d` over `len` columns; it raises where the kernel is longer than they are. -/
def ConvArgs.conv1d (len : ℕ) (history : ℕ → Column κ R) : Option (List (Column κ R)) :=
  if len < a.stateLen + 1 then none
  else some ((List.range (len - a.stateLen)).map fun p => a.tap fun j =>
    history (p + j * a.dilation))

def shortConvReference (reqs : List (ConvReq κ R)) (states : ConvStates κ R) :
    Option (List (Column κ R) × ConvStates κ R) :=
  (reqs.mapM fun r =>
    let history := readState states r ++ r.x
    (a.conv1d history.length fun p => history.getD p 0).map fun out =>
      (out, history.drop (history.length - a.stateLen))).map fun rows =>
    ((rows.flatMap Prod.fst).map a.act, indexPut states (reqs.map ConvReq.slot) (rows.map Prod.snd))

/-- `state[..., :: dilation]`. -/
def strided (step : ℕ) (state : List (Column κ R)) : List (Column κ R) :=
  (List.range ((state.length + step - 1) / step)).map fun j => state.getD (j * step) 0

def decodeConv (reqs : List (ConvReq κ R)) (states : ConvStates κ R) :
    List (Column κ R) × ConvStates κ R :=
  let state := reqs.map (readState states)
  let x := reqs.flatMap ConvReq.x
  let window := List.zipWith (fun state column => strided a.dilation state ++ [column]) state x
  let next := List.zipWith (fun state column => state.drop 1 ++ [column]) state x
  (window.map fun w => a.act (a.tap fun j => w.getD j 0), indexPut states (reqs.map ConvReq.slot)
    next)

def repeatInterleave (xs counts : List ℕ) : List ℕ :=
  (List.zipWith (fun x n => List.replicate n x) xs counts).flatten

/-- The columns of the outputs, of the states and of the next states. -/
def prefillIndices (stateLen : ℕ) (lens : List ℕ) : List ℕ × List ℕ × List ℕ :=
  let cu := lens.scanl (· + ·) 0
  let pad := (List.range lens.length).map (· * stateLen)
  let base := List.zipWith (· + ·) cu.dropLast pad
  let outIndex := List.zipWith (· + ·) (List.range (cu.getLastD 0)) (repeatInterleave pad lens)
  let span := List.range stateLen
  (outIndex, base.flatMap fun b => span.map (b + ·),
    (List.zipWith (· + ·) base lens).flatMap fun b => span.map (b + ·))

/-- `view` as `n` rows of `len`. -/
def viewRows (n len : ℕ) (xs : List (Column κ R)) : List (List (Column κ R)) :=
  (List.range n).map fun i => (xs.drop (i * len)).take len

/-- `_prefill_conv`; `buffer` is what the packed history holds before it is filled. -/
def prefillConv (buffer : ℕ → Column κ R) (reqs : List (ConvReq κ R)) (states : ConvStates κ R) :
    Option (List (Column κ R) × ConvStates κ R) :=
  let (outIndex, stateIndex, nextStateIndex) :=
    prefillIndices a.stateLen (reqs.map fun r => r.x.length)
  let x := reqs.flatMap ConvReq.x
  let history := indexPut buffer stateIndex (reqs.flatMap (readState states))
  let history := indexPut history (outIndex.map (· + a.stateLen)) x
  (a.conv1d (x.length + reqs.length * a.stateLen) history).bind fun out =>
    let newState := viewRows reqs.length a.stateLen (nextStateIndex.map history)
    (outIndex.mapM fun p => out[p]?).map fun out =>
      (out.map a.act, indexPut states (reqs.map ConvReq.slot) newState)

/-! ### Runs -/

structure ConvForward (κ R : Type) where
  isDecode : Bool
  reqs : List (ConvReq κ R)
  buffer : ℕ → Column κ R

def shortConv (f : ConvForward κ R) (states : ConvStates κ R) :
    Option (List (Column κ R) × ConvStates κ R) :=
  if f.isDecode then some (decodeConv a f.reqs states) else prefillConv a f.buffer f.reqs states

def splitRows (reqs : List (ConvReq κ R)) (rows : List (Column κ R)) : List (List (Column κ R)) :=
  match reqs with
  | [] => []
  | r :: reqs => rows.take r.x.length :: splitRows reqs (rows.drop r.x.length)

def rowsOf (slot : ℕ) (reqs : List (ConvReq κ R)) (rows : List (Column κ R)) : List (Column κ R) :=
  (reqs.zip (splitRows reqs rows)).flatMap fun p => if p.1.slot = slot then p.2 else []

/-- Forward after forward: the rows that a slot got, and the states. -/
def runConv (slot : ℕ) (fs : List (ConvForward κ R)) (states : ConvStates κ R) :
    Option (List (Column κ R) × ConvStates κ R) :=
  match fs with
  | [] => some ([], states)
  | f :: fs => (shortConv a f states).bind fun r => (runConv slot fs r.2).map fun r' =>
    (rowsOf slot f.reqs r.1 ++ r'.1, r'.2)

end FreeToken.PleConv
