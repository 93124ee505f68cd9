import FreeToken.Lib.RowMajor
import Mathlib.Data.List.AList

/-!
# The gated-delta layers of a GGUF checkpoint

A GGUF file holds the V heads tiled, `[G0_v0, G1_v0, ..., G0_v1, G1_v1, ...]`, and the model wants
them grouped by K head, `[G0_v0, G0_v1, G1_v0, G1_v1, ...]`.

* `ungroupV`: from tiled to grouped, along one axis.
* `reorderVHeads`: what the comments say the converter does.
* `loadWeights`: the tensors of the file, one after the other; those that index V heads are
  ungrouped.
-/

namespace FreeToken.Qwen35Moe

open RowMajor

/-! ### One axis -/

variable {α : Type*}

/-- The place of an axis that may be counted from the end. -/
def axisOf (t : Tensor α) (dim : ℤ) : ℕ := (if dim < 0 then dim + t.shape.length else dim).toNat

def ungroupV (t : Tensor α) (dim : ℤ) (numKHeads numVPerK headDim : ℕ) : Option (Tensor α) :=
  let axis := axisOf t dim
  let view := t.shape.take axis ++ [numVPerK, numKHeads, headDim] ++ t.shape.drop (axis + 1)
  (t.reshape view).bind fun out => (out.permute (swapAxes axis view.length)).reshape t.shape

/-- The converter's transform: the axis viewed as `[K, R, D]`, with `K` and `R` swapped. -/
def reorderVHeads (t : Tensor α) (dim : ℤ) (numKHeads numVPerK headDim : ℕ) : Option (Tensor α) :=
  let axis := axisOf t dim
  let view := t.shape.take axis ++ [numKHeads, numVPerK, headDim] ++ t.shape.drop (axis + 1)
  (t.reshape view).bind fun out => (out.permute (swapAxes axis view.length)).reshape t.shape

/-! ### The file -/

/-- The tensors of a gated-delta layer that index V heads. -/
inductive Suffix
  | ssmA | ssmDtBias | ssmConv1d | attnQkv | attnGate | ssmBeta | ssmAlpha | ssmOut
  deriving DecidableEq

/-- A tensor of the file: `shape` is that of its elements, `packed` are its rows of bytes. -/
structure GgufTensor (β : Type) where
  layer : ℕ
  suffix : Suffix
  ggmlType : ℕ
  shape : List ℕ
  packed : Tensor β

/-- The gated-delta group, and the layers that are full attention. -/
structure GgufConfig where
  numLayers : ℕ
  isFull : ℕ → Bool
  numKeyHeads : ℕ
  keyHeadDim : ℕ
  numValueHeads : ℕ
  valueHeadDim : ℕ
  convKernelDim : ℕ

namespace GgufConfig

variable (cfg : GgufConfig)

/-- `_vR`. -/
def numVPerK : ℕ := if cfg.numKeyHeads ≠ 0 then cfg.numValueHeads / cfg.numKeyHeads else 1

def untile : Bool :=
  cfg.numKeyHeads ≠ 0 && cfg.numValueHeads ≠ 0 && cfg.numKeyHeads ≠ cfg.numValueHeads

def qkRows : ℕ := 2 * cfg.numKeyHeads * cfg.keyHeadDim

/-- `gdn_attn_qkv_size`. -/
def attnQkvSize : ℕ := 2 * cfg.numKeyHeads * cfg.keyHeadDim + cfg.numValueHeads * cfg.valueHeadDim

end GgufConfig

/-- The dequantisation: the elements of a tensor, one after the other.  `negative` and `log` are
those of the numbers. -/
structure Dequant (β F : Type) where
  f32 : GgufTensor β → ℕ → F
  bf16 : GgufTensor β → ℕ → F
  any : GgufTensor β → ℕ → F
  negative : F → Bool
  neg : F → F
  log : F → F

/-! ### The weights -/

inductive Part
  | qkv | gate | beta | alpha
  deriving DecidableEq

/-- The parameters that the tensors become. -/
inductive Param
  | aLog | dtBias | conv1d | outProj | inProj | inProjPart (part : Part)
  deriving DecidableEq

inductive Value (β F : Type)
  | dense (t : Tensor F)
  | packed (t : Tensor β)

structure Weight (β F : Type) where
  layer : ℕ
  param : Param
  value : Value β F

inductive LoadError
  /-- A shape does not fit. -/
  | shape
  /-- `ssm_a` has an entry that is not negative. -/
  | notPreTransformed (layer : ℕ)
  /-- A layer lacks a part of its input projection. -/
  | incomplete

/-- For each layer the parts that are there. -/
abbrev InProjBuf (β : Type) := AList fun _ : ℕ => Part → Option (Tensor β)

/-- A result that a shape error may prevent. -/
def orShape {γ : Type} (o : Option γ) : Except LoadError γ := o.elim (.error .shape) .ok

variable {β F : Type} (cfg : GgufConfig) (q : Dequant β F) (quantType : ℕ → Suffix → Option ℕ)

/-- The V heads along an axis, if the file has them tiled. -/
def untileAlong {γ : Type} (t : Tensor γ) (dim : ℤ) (headDim : ℕ) : Option (Tensor γ) :=
  if cfg.untile then ungroupV t dim cfg.numKeyHeads cfg.numVPerK headDim else some t

/-- The V heads of rows that stand behind those of q and k. -/
def untileBehind {γ : Type} (t : Tensor γ) (headDim : ℕ) : Option (Tensor γ) :=
  if cfg.untile then
    (t.takeRows cfg.qkRows).bind fun qk => (t.dropRows cfg.qkRows).bind fun v =>
      (ungroupV v 0 cfg.numKeyHeads cfg.numVPerK headDim).bind qk.cat
  else some t

/-- `linear_attn.A_log`. -/
def loadA (t : GgufTensor β) : Except LoadError (Tensor F) :=
  (orShape (untileAlong cfg ⟨t.shape, q.f32 t⟩ 0 1)).bind fun a =>
    if (List.range (numel a.shape)).all fun i => q.negative (a.data i) then
      .ok { a with data := fun i => q.log (q.neg (a.data i)) }
    else .error (.notPreTransformed t.layer)

/-- `linear_attn.conv1d.weight`. -/
def loadConv1d (t : GgufTensor β) : Option (Tensor F) :=
  (Tensor.reshape ⟨t.shape, q.bf16 t⟩ [cfg.attnQkvSize, cfg.convKernelDim]).bind fun w =>
    (untileBehind cfg w cfg.valueHeadDim).bind fun w =>
      w.reshape [cfg.attnQkvSize, 1, cfg.convKernelDim]

/-- The packed rows of a part of the input projection. -/
def loadPart (part : Part) (t : GgufTensor β) : Option (Tensor β) :=
  match part with
  | .qkv => untileBehind cfg t.packed cfg.valueHeadDim
  | .gate => untileAlong cfg t.packed 0 cfg.valueHeadDim
  | .beta | .alpha => untileAlong cfg t.packed 0 1

/-- The fused input projection, or its parts where their quant types differ. -/
def fuseInProj (layer : ℕ) (qkv gate beta alpha : Tensor β) : Option (List (Weight β F)) :=
  let types :=
    [quantType layer .attnQkv, quantType layer .attnGate, quantType layer .ssmBeta,
      quantType layer .ssmAlpha]
  if types.dedup.length = 1 then
    (qkv.cat gate).bind fun t => (t.cat beta).bind fun t => (t.cat alpha).map fun t =>
      [⟨layer, .inProj, .packed t⟩]
  else
    some [⟨layer, .inProjPart .qkv, .packed qkv⟩, ⟨layer, .inProjPart .gate, .packed gate⟩,
      ⟨layer, .inProjPart .beta, .packed beta⟩, ⟨layer, .inProjPart .alpha, .packed alpha⟩]

/-- A part of the input projection is kept until its layer has all four. -/
def addPart (buf : InProjBuf β) (part : Part) (t : GgufTensor β) :
    Option (InProjBuf β × List (Weight β F)) :=
  (loadPart cfg part t).bind fun w =>
    let slots := Function.update ((buf.lookup t.layer).getD fun _ => none) part (some w)
    match slots .qkv, slots .gate, slots .beta, slots .alpha with
    | some qkv, some gate, some beta, some alpha =>
      (fuseInProj quantType t.layer qkv gate beta alpha).map fun ws => (buf.erase t.layer, ws)
    | _, _, _, _ => some (buf.insert t.layer slots, [])

/-- One turn of the loop in `iter_gguf_weights`, for the tensors that index V heads. -/
def loadTensor (buf : InProjBuf β) (t : GgufTensor β) :
    Except LoadError (InProjBuf β × List (Weight β F)) :=
  if cfg.numLayers ≤ t.layer then .ok (buf, [])
  else
    match t.suffix with
    | .ssmA => (loadA cfg q t).map fun a => (buf, [⟨t.layer, .aLog, .dense a⟩])
    | .ssmDtBias =>
      (orShape (untileAlong cfg ⟨t.shape, q.f32 t⟩ 0 1)).map fun dt =>
        (buf, [⟨t.layer, .dtBias, .dense dt⟩])
    | .ssmConv1d => (orShape (loadConv1d cfg q t)).map fun w =>
      (buf, [⟨t.layer, .conv1d, .dense w⟩])
    | suffix =>
      if cfg.isFull t.layer then .ok (buf, [])
      else
        match suffix with
        | .attnQkv => orShape (addPart cfg quantType buf .qkv t)
        | .attnGate => orShape (addPart cfg quantType buf .gate t)
        | .ssmBeta => orShape (addPart cfg quantType buf .beta t)
        | .ssmAlpha => orShape (addPart cfg quantType buf .alpha t)
        | _ =>
          (orShape (untileAlong cfg ⟨t.shape, q.any t⟩ 1 cfg.valueHeadDim)).map fun w =>
            (buf, [⟨t.layer, .outProj, .dense w⟩])

/-- The loop, with what was yielded so far. -/
def loadLoop (file : List (GgufTensor β)) (buf : InProjBuf β) (out : List (Weight β F)) :
    Except LoadError (InProjBuf β × List (Weight β F)) :=
  match file with
  | [] => .ok (buf, out)
  | t :: file => (loadTensor cfg q quantType buf t).bind fun r => loadLoop file r.1 (out ++ r.2)

def scanQuantTypes (file : List (GgufTensor β)) (layer : ℕ) (suffix : Suffix) : Option ℕ :=
  (file.reverse.find? fun t => t.layer == layer && t.suffix == suffix).map GgufTensor.ggmlType

/-- `iter_gguf_weights`, for the tensors that index V heads. -/
def loadWeights (file : List (GgufTensor β)) : Except LoadError (List (Weight β F)) :=
  (loadLoop cfg q (scanQuantTypes file) file ∅ []).bind fun r =>
    if r.1.keys.isEmpty then .ok r.2 else .error .incomplete

end FreeToken.Qwen35Moe
