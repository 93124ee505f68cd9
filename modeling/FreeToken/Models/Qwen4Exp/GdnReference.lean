import Mathlib.Algebra.BigOperators.Intervals
import Mathlib.Algebra.Field.Basic

/-!
# The reference rules of the gated delta network

The two rules of `gdn_reference`: token by token, and in chunks. Tensors are functions of their
indices, with zeros nowhere but where the source puts them; the numbers are those of a field, with
`exp` and `sqrt` on them.
-/

namespace FreeToken.GdnReference

open Finset

variable {R : Type*} [Field R]

/-- The arguments of both rules, `[B, T, Hv, D]` the tensors and `[B, T, Hv]` the gates. -/
structure GdnInput (R : Type*) where
  tLen : ℕ
  dk : ℕ
  query : ℕ → ℕ → ℕ → ℕ → R
  key : ℕ → ℕ → ℕ → ℕ → R
  value : ℕ → ℕ → ℕ → ℕ → R
  g : ℕ → ℕ → ℕ → R
  beta : ℕ → ℕ → ℕ → R

/-- The same for one row of the batch and one head, in time. -/
structure GdnHead (R : Type*) where
  tLen : ℕ
  dk : ℕ
  query : ℕ → ℕ → R
  key : ℕ → ℕ → R
  value : ℕ → ℕ → R
  g : ℕ → R
  beta : ℕ → R

def l2norm (sqrt : R → R) (d : ℕ) (x : ℕ → R) (i : ℕ) : R :=
  x i * (1 / sqrt (∑ j ∈ range d, x j ^ 2 + 1 / 10 ^ 6))

def GdnInput.head (sqrt : R → R) (x : GdnInput R) (useQkL2norm : Bool) (b h : ℕ) : GdnHead R where
  tLen := x.tLen
  dk := x.dk
  query t d := if useQkL2norm then l2norm sqrt x.dk (x.query b t h) d else x.query b t h d
  key t d := if useQkL2norm then l2norm sqrt x.dk (x.key b t h) d else x.key b t h d
  value t e := x.value b t h e
  g t := x.g b t h
  beta t := x.beta b t h

def GdnHead.scaled (sqrt : R → R) (x : GdnHead R) : GdnHead R :=
  { x with query := fun t d => x.query t d * (1 / sqrt x.dk) }

def initialOrZero (initialState : Option (ℕ → ℕ → ℕ → ℕ → R)) (b h d e : ℕ) : R :=
  match initialState with
  | none => 0
  | some state => state b h d e

/-! ### Token by token -/

abbrev RuleState (R : Type*) := (ℕ → ℕ → R) × (ℕ → ℕ → R)

def recurrentStep (exp : R → R) (x : GdnHead R) (s : RuleState R) (i : ℕ) : RuleState R :=
  let state : ℕ → ℕ → R := fun d e => s.2 d e * exp (x.g i)
  let kvMem : ℕ → R := fun e => ∑ d ∈ range x.dk, state d e * x.key i d
  let delta : ℕ → R := fun e => (x.value i e - kvMem e) * x.beta i
  let state : ℕ → ℕ → R := fun d e => state d e + x.key i d * delta e
  (Function.update s.1 i fun e => ∑ d ∈ range x.dk, state d e * x.query i d, state)

def recurrentHead (exp sqrt : R → R) (x : GdnHead R) (state : ℕ → ℕ → R) : RuleState R :=
  (List.range x.tLen).foldl (recurrentStep exp (x.scaled sqrt)) (fun _ _ => 0, state)

/-- The outputs `[B, T, Hv, Dv]` and the final state. -/
def recurrentGatedDeltaRule (exp sqrt : R → R) (x : GdnInput R)
    (initialState : Option (ℕ → ℕ → ℕ → ℕ → R))
    (useQkL2norm : Bool) : (ℕ → ℕ → ℕ → ℕ → R) × (ℕ → ℕ → ℕ → ℕ → R) :=
  (fun b t h =>
    (recurrentHead exp sqrt (x.head sqrt useQkL2norm b h) (initialOrZero initialState b h)).1 t,
    fun b h =>
      (recurrentHead exp sqrt (x.head sqrt useQkL2norm b h) (initialOrZero initialState b h)).2)

/-! ### In chunks -/

def padSize (chunkSize tLen : ℕ) : ℕ := (chunkSize - tLen % chunkSize) % chunkSize

def GdnHead.padded (x : GdnHead R) : GdnHead R where
  tLen := x.tLen
  dk := x.dk
  query t d := if t < x.tLen then x.query t d else 0
  key t d := if t < x.tLen then x.key t d else 0
  value t e := if t < x.tLen then x.value t e else 0
  g t := if t < x.tLen then x.g t else 0
  beta t := if t < x.tLen then x.beta t else 0

/-- The tensors of a chunk after the reshape, the gates summed up within it. -/
structure GdnChunk (R : Type*) where
  query : ℕ → ℕ → R
  key : ℕ → ℕ → R
  kBeta : ℕ → ℕ → R
  vBeta : ℕ → ℕ → R
  g : ℕ → R

def GdnHead.chunk (x : GdnHead R) (chunkSize c : ℕ) : GdnChunk R where
  query i d := x.query (c * chunkSize + i) d
  key i d := x.key (c * chunkSize + i) d
  kBeta i d := x.key (c * chunkSize + i) d * x.beta (c * chunkSize + i)
  vBeta i e := x.value (c * chunkSize + i) e * x.beta (c * chunkSize + i)
  g i := ∑ s ∈ range (i + 1), x.g (c * chunkSize + s)

def tril (x : ℕ → ℕ → R) (i j : ℕ) : R := if j ≤ i then x i j else 0

def decayMask (exp : R → R) (g : ℕ → R) : ℕ → ℕ → R :=
  tril fun i j => exp (tril (fun i j => g i - g j) i j)

/-- Minus the masked products of the keys: what the substitution starts from. -/
def attnStart (exp : R → R) (dk : ℕ) (x : GdnChunk R) (i j : ℕ) : R :=
  -(if i ≤ j then 0 else (∑ d ∈ range dk, x.kBeta i d * x.key j d) * decayMask exp x.g i j)

/-- A round of the substitution: the entries before the diagonal of a row. -/
def attnRow (attn : ℕ → ℕ → R) (i r j : ℕ) : R :=
  if r = i ∧ j < i then attn i j + ∑ s ∈ range i, attn i s * attn s j else attn r j

def attnSolve (exp : R → R) (chunkSize dk : ℕ) (x : GdnChunk R) (i j : ℕ) : R :=
  (List.range' 1 (chunkSize - 1)).foldl attnRow (attnStart exp dk x) i j + if i = j then 1 else 0

/-- A chunk's turn: its outputs, and the state that it leaves. -/
def chunkStep (exp : R → R) (chunkSize dk : ℕ) (x : GdnChunk R) (lastRecurrentState : ℕ → ℕ → R) :
    RuleState R :=
  let solved := attnSolve exp chunkSize dk x
  let value : ℕ → ℕ → R := fun i e => ∑ j ∈ range chunkSize, solved i j * x.vBeta j e
  let kCumdecay :
    ℕ → ℕ → R := fun i d => ∑ j ∈ range chunkSize, solved i j * (x.kBeta j d * exp (x.g j))
  let attn :
    ℕ → ℕ → R := fun i j => (∑ d ∈ range dk, x.query i d * x.key j d) * decayMask exp x.g i j
  let vPrime : ℕ → ℕ → R := fun i e => ∑ d ∈ range dk, kCumdecay i d * lastRecurrentState d e
  let vNew : ℕ → ℕ → R := fun i e => value i e - vPrime i e
  let attnInter :
    ℕ → ℕ → R := fun i e => ∑ d ∈ range dk, x.query i d * exp (x.g i) * lastRecurrentState d e
  (fun i e => attnInter i e + ∑ j ∈ range chunkSize, attn i j * vNew j e,
    fun d e => lastRecurrentState d e * exp (x.g (chunkSize - 1)) +
      ∑ j ∈ range chunkSize, x.key j d * exp (x.g (chunkSize - 1) - x.g j) * vNew j e)

/-- The chunks in order; the output of a chunk is `core_attn_out[:, :, c]`. -/
def chunkLoop (exp : R → R) (chunkSize : ℕ) (x : GdnHead R) (s : (ℕ → ℕ → ℕ → R) × (ℕ → ℕ → R))
    (c : ℕ) :
    (ℕ → ℕ → ℕ → R) × (ℕ → ℕ → R) :=
  let turn := chunkStep exp chunkSize x.dk (x.chunk chunkSize c) s.2
  (Function.update s.1 c turn.1, turn.2)

def chunkHead (exp sqrt : R → R) (chunkSize : ℕ) (x : GdnHead R) (state : ℕ → ℕ → R) :
    RuleState R :=
  let total := x.tLen + padSize chunkSize x.tLen
  let s := (List.range (total / chunkSize)).foldl (chunkLoop exp chunkSize (x.padded.scaled sqrt))
    (fun _ _ _ => 0, state)
  (fun t e => s.1 (t / chunkSize) (t % chunkSize) e, s.2)

/-- The outputs `[B, T, Hv, Dv]` and the final state. -/
def chunkGatedDeltaRule (exp sqrt : R → R) (chunkSize : ℕ) (x : GdnInput R)
    (initialState : Option (ℕ → ℕ → ℕ → ℕ → R)) (useQkL2norm : Bool) :
    (ℕ → ℕ → ℕ → ℕ → R) × (ℕ → ℕ → ℕ → ℕ → R) :=
  (fun b t h =>
    (chunkHead exp sqrt chunkSize (x.head sqrt useQkL2norm b h) (initialOrZero initialState b h)).1
    t,
    fun b h =>
      (chunkHead exp sqrt chunkSize (x.head sqrt useQkL2norm b h)
      (initialOrZero initialState b h)).2)

end FreeToken.GdnReference
